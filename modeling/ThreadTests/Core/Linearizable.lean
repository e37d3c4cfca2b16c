import ThreadTests.Core.System
import Mathlib.Logic.Function.Basic
import Mathlib.Data.List.Basic
import Mathlib.Data.List.Induction
import Mathlib.Tactic.Common

/-!
# Linearizability

A history is what the callers of an object see: the invocations of operations and the responses. It
is linearizable when its operations, all that have a response and possibly some that have none, can
be put in one order in which they are legal one after the other, with the results they had, and in
which no operation stands behind one that was invoked only after its response (`Linearizes`).

The atomic `object` of a specification lets each operation take effect in one step between its
invocation and its response. Its histories are linearizable, by the order of the effects
(`linearizable_of_object`), and with them those of every system that a simulation takes to it
(`linearizable_of_simulation`).
-/

namespace ThreadTests

universe u v w x y z

/-- The steps taken together. -/
def System.bursts {σ : Type u} {ε : Type v} (S : System σ ε) : System σ (List ε) where
  init := S.init
  step := S.run

theorem System.run_bursts {σ : Type u} {ε : Type v} (S : System σ ε) (s : σ)
    (bursts : List (List ε)) : S.bursts.run s bursts = S.run s bursts.flatten := by
  induction bursts generalizing s with
  | nil => rfl
  | cons es bursts ih =>
    rw [run_cons, List.flatten_cons, run_append]
    congr 1
    funext t
    exact ih t

theorem System.bursts_singleton {σ : Type u} {ε : Type v} {S : System σ ε} {s t : σ} {e : ε}
    (h : S.step s e = some t) : S.bursts.step s [e] = some t := by
  change (S.step s e).bind some = some t
  rw [h]
  rfl

theorem System.bursts_mono {σ : Type u} {ε : Type v} {S T : System σ ε}
    (hST : ∀ {s t e}, S.step s e = some t → T.step s e = some t) {s t : σ} {es : List ε}
    (h : S.bursts.step s es = some t) : T.bursts.step s es = some t := by
  induction es generalizing s with
  | nil => exact h
  | cons e es ih =>
    obtain ⟨u, hu, hrest⟩ := Option.bind_eq_some_iff.1 h
    exact Option.bind_eq_some_iff.2 ⟨u, hST hu, ih hrest⟩

/-- What is seen of a run. -/
def System.record {σ : Type u} {ε : Type v} {β : Type w} (S : System σ ε)
    (see : σ → ε → List β) : σ → List ε → List β
  | _, [] => []
  | s, e :: es => see s e ++ ((S.step s e).elim [] fun t => S.record see t es)

/-- A run and what is seen of it, a step at a time. -/
theorem System.run_record_cons {σ : Type u} {ε : Type v} {β : Type w} {S : System σ ε}
    {see : σ → ε → List β} {s t u : σ} {e : ε} {es : List ε} {seen : List β}
    (hst : S.step s e = some t) (h : S.run t es = some u ∧ S.record see t es = seen) :
    S.run s (e :: es) = some u ∧ S.record see s (e :: es) = see s e ++ seen := by
  rw [run_cons, record, hst, Option.bind_some, Option.elim_some, h.2]
  exact ⟨h.1, rfl⟩

/-- A restriction shows the same of its runs. -/
theorem System.record_restrict {σ : Type u} {ε : Type v} {β : Type w} {S : System σ ε}
    {G : σ → ε → Prop} [∀ s e, Decidable (G s e)] (see : σ → ε → List β) {s t : σ} {es : List ε}
    (hrun : (S.restrict G).run s es = some t) :
    (S.restrict G).record see s es = S.record see s es := by
  induction es generalizing s with
  | nil => rfl
  | cons e es ih =>
    obtain ⟨u, hu, hrest⟩ := Option.bind_eq_some_iff.1 hrun
    rw [record, record, hu, (restrict_step.1 hu).2]
    exact congrArg (see s e ++ ·) (ih hrest)

/-- A run to a state with a property that no step restores is one of the restriction to that
property. -/
theorem System.run_restrict {σ : Type u} {ε : Type v} {S : System σ ε} {P : σ → Prop}
    [DecidablePred P] (hP : ∀ {s t e}, S.step s e = some t → P t → P s) {s t : σ} {es : List ε}
    (hrun : S.run s es = some t) (ht : P t) :
    (S.restrict fun s _ => P s).run s es = some t := by
  suffices h : (S.restrict fun s _ => P s).run s es = some t ∧ P s from h.1
  induction es generalizing s with
  | nil =>
    cases hrun
    exact ⟨rfl, ht⟩
  | cons e es ih =>
    obtain ⟨u, hu, hrest⟩ := Option.bind_eq_some_iff.1 hrun
    obtain ⟨hwithin, hPu⟩ := ih hrest
    have hs := hP hu hPu
    refine ⟨?_, hs⟩
    rw [run_cons, restrict_step.2 ⟨hs, hu⟩]
    exact hwithin

/-- An object, by what its operations do one at a time; an operation has a result only where it is
legal with that result. -/
structure Spec (σ : Type u) (α : Type v) (ρ : Type w) where
  init : σ
  step : σ → α → ρ → Option σ

/-- What a caller sees. -/
inductive Action (ι : Type x) (α : Type v) (ρ : Type w) where
  | invoke (i : ι) (op : α)
  | respond (i : ι) (res : ρ)
  deriving DecidableEq, Repr

def Action.thread {ι : Type x} {α : Type v} {ρ : Type w} : Action ι α ρ → ι
  | .invoke i _ | .respond i _ => i

/-- An operation of a history, by the place of its invocation. -/
structure Operation (ι : Type x) (α : Type v) (ρ : Type w) where
  thread : ι
  op : α
  res : ρ
  invoked : ℕ

section History

variable {σ : Type u} {α : Type v} {ρ : Type w} {ι : Type x}

/-- The operations in their order, one after the other. -/
def Spec.run (spec : Spec σ α ρ) : σ → List (Operation ι α ρ) → Option σ
  | s, [] => some s
  | s, o :: l => (spec.step s o.op o.res).bind fun t => spec.run t l

theorem Spec.run_concat (spec : Spec σ α ρ) (s : σ) (l : List (Operation ι α ρ))
    (o : Operation ι α ρ) :
    spec.run s (l ++ [o]) = (spec.run s l).bind fun t => spec.step t o.op o.res := by
  induction l generalizing s with
  | nil => exact Option.bind_fun_some (spec.step s o.op o.res)
  | cons o' l ih =>
    rw [List.cons_append, run, run, Option.bind_assoc]
    congr 1
    funext t
    exact ih t

/-- After the place `a` nothing is seen of the thread. -/
def Quiet (h : List (Action ι α ρ)) (i : ι) (a : ℕ) : Prop :=
  ∀ j b, a < j → h[j]? = some b → b.thread ≠ i

/-- The response of an operation is at the place `k`. -/
structure Returns (h : List (Action ι α ρ)) (o : Operation ι α ρ) (k : ℕ) : Prop where
  respond : h[k]? = some (.respond o.thread o.res)
  lt : o.invoked < k
  first : ∀ j b, o.invoked < j → j < k → h[j]? = some b → b.thread ≠ o.thread

/-- The order of the operations explains the history. -/
structure Linearizes (spec : Spec σ α ρ) (h : List (Action ι α ρ)) (l : List (Operation ι α ρ)) :
    Prop where
  legal : (spec.run spec.init l).isSome
  /-- They are operations of the history, and none is there twice. -/
  invoked : ∀ o ∈ l, h[o.invoked]? = some (.invoke o.thread o.op)
  nodup : l.Pairwise fun o o' => o.invoked ≠ o'.invoked
  /-- Those with a response are there, with their results. -/
  complete : ∀ k i res, h[k]? = some (.respond i res) → ∃ o ∈ l, Returns h o k
  /-- No operation stands behind one that was invoked after its response. -/
  realTime : l.Pairwise fun o o' => ∀ k, Returns h o' k → o.invoked < k

def Linearizable (spec : Spec σ α ρ) (h : List (Action ι α ρ)) : Prop :=
  ∃ l, Linearizes spec h l

variable {h : List (Action ι α ρ)} {b : Action ι α ρ} {o : Operation ι α ρ} {i : ι} {a k : ℕ}

theorem Quiet.concat (hq : Quiet h i a) (hb : b.thread ≠ i) : Quiet (h ++ [b]) i a := by
  intro j c hj hc
  rcases Nat.lt_trichotomy j h.length with hlt | rfl | hgt
  · rw [List.getElem?_append_left hlt] at hc
    exact hq j c hj hc
  · rw [List.getElem?_concat_length] at hc
    cases hc
    exact hb
  · rw [List.getElem?_eq_none (by rw [List.length_append]; exact hgt)] at hc
    cases hc

/-- What was seen stays. -/
theorem getElem?_concat_of_some {c : Action ι α ρ} (hc : h[k]? = some c) :
    (h ++ [b])[k]? = some c := by
  rwa [List.getElem?_append_left (List.getElem?_eq_some_iff.1 hc).1]

theorem Returns.concat (hr : Returns h o k) : Returns (h ++ [b]) o k := by
  refine ⟨getElem?_concat_of_some hr.respond, hr.lt, fun j c hj hk hc => ?_⟩
  have hlt : j < h.length := Nat.lt_trans hk (List.getElem?_eq_some_iff.1 hr.respond).1
  rw [List.getElem?_append_left hlt] at hc
  exact hr.first j c hj hk hc

/-- A response seen so far, or the last one. -/
theorem Returns.of_concat (hr : Returns (h ++ [b]) o k) : Returns h o k ∨ k = h.length := by
  rcases Nat.lt_trichotomy k h.length with hlt | rfl | hgt
  · refine .inl ⟨?_, hr.lt, fun j c hj hk hc => hr.first j c hj hk (getElem?_concat_of_some hc)⟩
    rw [← hr.respond, List.getElem?_append_left hlt]
  · exact .inr rfl
  · have hnone := hr.respond
    rw [List.getElem?_eq_none (by rw [List.length_append]; exact hgt)] at hnone
    cases hnone

/-- A history goes on. -/
theorem Linearizes.concat {spec : Spec σ α ρ} {l : List (Operation ι α ρ)}
    (hl : Linearizes spec h l)
    (hb : ∀ i res, b = .respond i res → ∃ o ∈ l, Returns (h ++ [b]) o h.length) :
    Linearizes spec (h ++ [b]) l := by
  refine ⟨hl.legal, fun o ho => getElem?_concat_of_some (hl.invoked o ho), hl.nodup,
    fun k i res hk => ?_, hl.realTime.imp_of_mem fun {o o'} ho _ hbefore k hk => ?_⟩
  · rcases Nat.lt_trichotomy k h.length with hlt | rfl | hgt
    · rw [List.getElem?_append_left hlt] at hk
      obtain ⟨o, ho, hr⟩ := hl.complete k i res hk
      exact ⟨o, ho, hr.concat⟩
    · rw [List.getElem?_concat_length] at hk
      exact hb i res (Option.some.inj hk)
    · rw [List.getElem?_eq_none (by rw [List.length_append]; exact hgt)] at hk
      cases hk
  · rcases hk.of_concat with hold | rfl
    · exact hbefore k hold
    · exact (List.getElem?_eq_some_iff.1 (hl.invoked o ho)).1

/-- An operation stands before those that were invoked after its response. -/
theorem Linearizes.mem_before {spec : Spec σ α ρ} {before after : List (Operation ι α ρ)}
    {o' : Operation ι α ρ} (hl : Linearizes spec h (before ++ o' :: after))
    (ho : o ∈ before ++ o' :: after) (hr : Returns h o k) (hk : k ≤ o'.invoked) : o ∈ before := by
  obtain ⟨-, hafter, -⟩ := List.pairwise_append.1 hl.realTime
  rcases List.mem_append.1 ho with hbefore | hbehind
  · exact hbefore
  · rcases List.mem_cons.1 hbehind with rfl | hbehind
    · exact absurd hr.lt (Nat.not_lt_of_le hk)
    · exact absurd ((List.pairwise_cons.1 hafter).1 o hbehind k hr) (Nat.not_lt_of_le hk)

end History

/-! ## The atomic object -/

/-- How far the operation of a thread is. -/
inductive Status (α : Type v) (ρ : Type w) where
  | idle
  | invoked (op : α)
  | done (res : ρ)
  deriving DecidableEq, Repr

structure Object (σ : Type u) (ι : Type x) (α : Type v) (ρ : Type w) where
  value : σ
  status : ι → Status α ρ

/-- The operation of a thread goes on. -/
def Object.become {σ : Type u} {ι : Type x} {α : Type v} {ρ : Type w} [DecidableEq ι]
    (s : Object σ ι α ρ) (i : ι) (st : Status α ρ) : Object σ ι α ρ :=
  { s with status := Function.update s.status i st }

inductive ObjectEvent (ι : Type x) (α : Type v) (ρ : Type w) where
  | invoke (i : ι) (op : α)
  | effect (i : ι) (res : ρ)
  | respond (i : ι) (res : ρ)

/-- The effect is not seen. -/
def ObjectEvent.action {ι : Type x} {α : Type v} {ρ : Type w} :
    ObjectEvent ι α ρ → Option (Action ι α ρ)
  | .invoke i op => some (.invoke i op)
  | .effect _ _ => none
  | .respond i res => some (.respond i res)

section Object

variable {σ : Type u} {α : Type v} {ρ : Type w} {ι : Type x} [DecidableEq ι] [DecidableEq ρ]
  {spec : Spec σ α ρ}

/-- Each operation takes effect in one step between its invocation and its response. -/
def Spec.object (spec : Spec σ α ρ) (ι : Type x) [DecidableEq ι] :
    System (Object σ ι α ρ) (ObjectEvent ι α ρ) where
  init := ⟨spec.init, fun _ => .idle⟩
  step s
    | .invoke i op =>
      match s.status i with
      | .idle => some (s.become i (.invoked op))
      | _ => none
    | .effect i res =>
      match s.status i with
      | .invoked op =>
        (spec.step s.value op res).map fun value => { s.become i (.done res) with value := value }
      | _ => none
    | .respond i res =>
      match s.status i with
      | .done res' =>
        if res' = res then some (s.become i .idle) else none
      | _ => none

omit [DecidableEq ρ] in
@[simp] theorem Object.become_status_self (s : Object σ ι α ρ) (i : ι) (st : Status α ρ) :
    (s.become i st).status i = st := Function.update_self ..

omit [DecidableEq ρ] in
theorem Object.become_status_of_ne (s : Object σ ι α ρ) {i j : ι} (h : j ≠ i) (st : Status α ρ) :
    (s.become i st).status j = s.status j := Function.update_of_ne h ..

theorem object_invoke {s : Object σ ι α ρ} {i : ι} (h : s.status i = .idle) (op : α) :
    (spec.object ι).step s (.invoke i op) = some (s.become i (.invoked op)) := by
  simp only [Spec.object, h]

theorem object_effect {s : Object σ ι α ρ} {i : ι} {op : α} {res : ρ} {value : σ}
    (h : s.status i = .invoked op) (hvalue : spec.step s.value op res = some value) :
    (spec.object ι).step s (.effect i res) =
      some { s.become i (.done res) with value := value } := by
  simp only [Spec.object, h, hvalue, Option.map_some]

theorem object_respond {s : Object σ ι α ρ} {i : ι} {res : ρ} (h : s.status i = .done res) :
    (spec.object ι).step s (.respond i res) = some (s.become i .idle) := by
  simp only [Spec.object, h, if_true]

/-- An object on which more is legal has the steps of the other. -/
theorem object_mono {spec' : Spec σ α ρ}
    (hspec : ∀ {s op res t}, spec.step s op res = some t → spec'.step s op res = some t)
    {s t : Object σ ι α ρ} {e : ObjectEvent ι α ρ} (h : (spec.object ι).step s e = some t) :
    (spec'.object ι).step s e = some t := by
  cases e with
  | invoke i op | respond i res => exact h
  | effect i res =>
    simp only [Spec.object] at h
    split at h
    · obtain ⟨value, hvalue, rfl⟩ := Option.map_eq_some_iff.1 h
      exact object_effect ‹_› (hspec hvalue)
    · cases h

/-- An operation that responds where it takes effect. -/
theorem object_complete {s : Object σ ι α ρ} {i : ι} {op : α} {res : ρ} {value : σ}
    (h : s.status i = .invoked op) (hvalue : spec.step s.value op res = some value) :
    (spec.object ι).bursts.step s [.effect i res, .respond i res] =
      some { s.become i .idle with value := value } := by
  have hdone : ({ s.become i (.done res) with value := value } : Object σ ι α ρ).status i =
      .done res := s.become_status_self i _
  change ((spec.object ι).step s (.effect i res)).bind (fun t =>
    ((spec.object ι).step t (.respond i res)).bind some) = _
  rw [object_effect h hvalue, Option.bind_some, object_respond hdone, Option.bind_some]
  simp only [Object.become, Function.update_idem]

/-- The order explains the history so far: an operation that is invoked has not taken effect, and
one that is done is in the order. -/
structure Explains (spec : Spec σ α ρ) (h : List (Action ι α ρ)) (s : Object σ ι α ρ)
    (l : List (Operation ι α ρ)) : Prop where
  linearizes : Linearizes spec h l
  value : spec.run spec.init l = some s.value
  invoked : ∀ i op, s.status i = .invoked op →
    ∃ a, h[a]? = some (.invoke i op) ∧ Quiet h i a ∧ ∀ o ∈ l, o.invoked ≠ a
  done : ∀ i res, s.status i = .done res →
    ∃ o ∈ l, o.thread = i ∧ o.res = res ∧ Quiet h i o.invoked

namespace Explains

variable {h : List (Action ι α ρ)} {s : Object σ ι α ρ} {l : List (Operation ι α ρ)} {i : ι}

omit [DecidableEq ρ] in
theorem invoke (he : Explains spec h s l) (op : α) :
    Explains spec (h ++ [.invoke i op]) (s.become i (.invoked op)) l := by
  refine ⟨he.linearizes.concat nofun, he.value, fun j op' hj => ?_, fun j res hj => ?_⟩
  · by_cases hji : j = i
    · subst hji
      rw [Object.become_status_self] at hj
      cases hj
      refine ⟨h.length, List.getElem?_concat_length, fun k c hk hc => ?_, fun o ho => ?_⟩
      · rw [List.getElem?_eq_none (by rw [List.length_append]; exact hk)] at hc
        cases hc
      · exact Nat.ne_of_lt (List.getElem?_eq_some_iff.1 (he.linearizes.invoked o ho)).1
    · rw [Object.become_status_of_ne s hji] at hj
      obtain ⟨a, ha, hquiet, hfresh⟩ := he.invoked j op' hj
      exact ⟨a, getElem?_concat_of_some ha, hquiet.concat fun heq => hji heq.symm, hfresh⟩
  · by_cases hji : j = i
    · subst hji
      rw [Object.become_status_self] at hj
      cases hj
    · rw [Object.become_status_of_ne s hji] at hj
      obtain ⟨o, ho, hthread, hres, hquiet⟩ := he.done j res hj
      exact ⟨o, ho, hthread, hres, hquiet.concat fun heq => hji heq.symm⟩

omit [DecidableEq ρ] in
/-- The operation joins the order when it takes effect. -/
theorem effect (he : Explains spec h s l) {op : α} {res : ρ} {value : σ}
    (hi : s.status i = .invoked op) (hvalue : spec.step s.value op res = some value) :
    ∃ l, Explains spec h { s.become i (.done res) with value := value } l := by
  obtain ⟨a, ha, hquiet, hfresh⟩ := he.invoked i op hi
  have hrun : spec.run spec.init (l ++ [⟨i, op, res, a⟩]) = some value := by
    rw [spec.run_concat, he.value]
    exact hvalue
  have hmem : ∀ o ∈ l ++ [⟨i, op, res, a⟩], o ∈ l ∨ o = ⟨i, op, res, a⟩ := fun o ho => by
    simpa using ho
  refine ⟨l ++ [⟨i, op, res, a⟩], ⟨?_, ?_, ?_, ?_, ?_⟩, hrun, fun j op' hj => ?_,
    fun j res' hj => ?_⟩
  · rw [hrun]
    rfl
  · intro o ho
    rcases hmem o ho with ho | rfl
    · exact he.linearizes.invoked o ho
    · exact ha
  · refine List.pairwise_append.2 ⟨he.linearizes.nodup, List.pairwise_singleton _ _, ?_⟩
    intro o ho o' ho'
    rw [List.mem_singleton.1 ho']
    exact hfresh o ho
  · intro k j res' hk
    obtain ⟨o, ho, hr⟩ := he.linearizes.complete k j res' hk
    exact ⟨o, List.mem_append_left _ ho, hr⟩
  · -- the response of the operation is still to come
    refine List.pairwise_append.2 ⟨he.linearizes.realTime, List.pairwise_singleton _ _, ?_⟩
    intro o ho o' ho' k hk
    rw [List.mem_singleton.1 ho'] at hk
    exact absurd rfl (hquiet k _ hk.lt hk.respond)
  · by_cases hji : j = i
    · subst hji
      rw [Object.become_status_self] at hj
      cases hj
    · rw [Object.become_status_of_ne s hji] at hj
      obtain ⟨a', ha', hquiet', hfresh'⟩ := he.invoked j op' hj
      refine ⟨a', ha', hquiet', fun o ho => ?_⟩
      rcases hmem o ho with ho | rfl
      · exact hfresh' o ho
      · rintro rfl
        rw [ha] at ha'
        cases ha'
        exact hji rfl
  · by_cases hji : j = i
    · subst hji
      rw [Object.become_status_self] at hj
      cases hj
      exact ⟨_, List.mem_append_right _ List.mem_cons_self, rfl, rfl, hquiet⟩
    · rw [Object.become_status_of_ne s hji] at hj
      obtain ⟨o, ho, hthread, hres, hquiet'⟩ := he.done j res' hj
      exact ⟨o, List.mem_append_left _ ho, hthread, hres, hquiet'⟩

omit [DecidableEq ρ] in
theorem respond (he : Explains spec h s l) {res : ρ} (hi : s.status i = .done res) :
    Explains spec (h ++ [.respond i res]) (s.become i .idle) l := by
  obtain ⟨o, ho, rfl, rfl, hquiet⟩ := he.done i res hi
  refine ⟨he.linearizes.concat ?_, he.value, fun j op hj => ?_, fun j res hj => ?_⟩
  · intro i res _
    have hlt := (List.getElem?_eq_some_iff.1 (he.linearizes.invoked o ho)).1
    refine ⟨o, ho, List.getElem?_concat_length, hlt, fun j c hj hk hc => ?_⟩
    rw [List.getElem?_append_left hk] at hc
    exact hquiet j c hj hc
  · by_cases hji : j = o.thread
    · subst hji
      rw [Object.become_status_self] at hj
      cases hj
    · rw [Object.become_status_of_ne s hji] at hj
      obtain ⟨a, ha, hquiet', hfresh⟩ := he.invoked j op hj
      exact ⟨a, getElem?_concat_of_some ha, hquiet'.concat fun heq => hji heq.symm, hfresh⟩
  · by_cases hji : j = o.thread
    · subst hji
      rw [Object.become_status_self] at hj
      cases hj
    · rw [Object.become_status_of_ne s hji] at hj
      obtain ⟨o', ho', hthread, hres, hquiet'⟩ := he.done j res hj
      exact ⟨o', ho', hthread, hres, hquiet'.concat fun heq => hji heq.symm⟩

end Explains

/-- A run of the atomic object is explained by the order of the effects. -/
theorem exists_explains {es : List (ObjectEvent ι α ρ)} {s : Object σ ι α ρ}
    (hrun : (spec.object ι).run (spec.object ι).init es = some s) :
    ∃ l, Explains spec (es.filterMap ObjectEvent.action) s l := by
  induction es using List.reverseRecOn generalizing s with
  | nil =>
    cases hrun
    refine ⟨[], ⟨rfl, nofun, .nil, ?_, .nil⟩, rfl, ?_, ?_⟩
    · intro k i res hk
      simp at hk
    · intro i op hi
      cases hi
    · intro i res hi
      cases hi
  | append_singleton es e ih =>
    rw [System.run_append] at hrun
    obtain ⟨t, ht, hst⟩ := Option.bind_eq_some_iff.1 hrun
    obtain ⟨u, hu, ⟨⟩⟩ := Option.bind_eq_some_iff.1 hst
    obtain ⟨l, hl⟩ := ih ht
    rw [List.filterMap_append]
    cases e with
    | invoke i op =>
      simp only [Spec.object] at hu
      split at hu
      · cases hu
        exact ⟨l, hl.invoke op⟩
      · cases hu
    | effect i res =>
      simp only [Spec.object] at hu
      split at hu
      · obtain ⟨value, hvalue, rfl⟩ := Option.map_eq_some_iff.1 hu
        obtain ⟨l', hl'⟩ := hl.effect ‹_› hvalue
        exact ⟨l', by rwa [List.filterMap_cons_none rfl, List.filterMap_nil, List.append_nil]⟩
      · cases hu
    | respond i res =>
      simp only [Spec.object] at hu
      split at hu
      · obtain ⟨rfl, ⟨⟩⟩ := Option.ite_none_right_eq_some.1 hu
        exact ⟨l, hl.respond ‹_›⟩
      · cases hu

/-- **The histories of the atomic object are linearizable.** -/
theorem linearizable_of_object {es : List (ObjectEvent ι α ρ)} {s : Object σ ι α ρ}
    (hrun : (spec.object ι).run (spec.object ι).init es = some s) :
    Linearizable spec (es.filterMap ObjectEvent.action) := by
  obtain ⟨l, hl⟩ := exists_explains hrun
  exact ⟨l, hl.linearizes⟩

/-! ## Implementations -/

variable {τ : Type y} {ε : Type z} {S : System τ ε}

theorem record_eq_trace (R : System.Simulation S (spec.object ι).bursts)
    {see : τ → ε → List (Action ι α ρ)}
    (hsee : ∀ s e, ((R.label s e).getD []).filterMap ObjectEvent.action = see s e) (s : τ)
    (es : List ε) : S.record see s es = (R.trace s es).flatten.filterMap ObjectEvent.action := by
  induction es generalizing s with
  | nil => rfl
  | cons e es ih =>
    rw [System.record, System.Simulation.trace, List.flatten_append, List.filterMap_append, ← hsee]
    congr 1
    · cases R.label s e with
      | none => rfl
      | some burst => rw [Option.getD_some, Option.toList_some, List.flatten_singleton]
    · cases S.step s e with
      | none => rfl
      | some t => exact ih t

/-- **An implementation is linearizable** when a simulation takes it to the atomic object and keeps
what is seen. -/
theorem linearizable_of_simulation (R : System.Simulation S (spec.object ι).bursts)
    {see : τ → ε → List (Action ι α ρ)}
    (hsee : ∀ s e, ((R.label s e).getD []).filterMap ObjectEvent.action = see s e) {es : List ε}
    {s : τ} (hrun : S.run S.init es = some s) : Linearizable spec (S.record see S.init es) := by
  have hbursts := R.run_trace System.Reachable.init hrun
  rw [R.init, System.run_bursts] at hbursts
  rw [record_eq_trace R hsee]
  exact linearizable_of_object hbursts

end Object

end ThreadTests
