import ShioSylar.Lib.Run
import Mathlib.Data.Fintype.Basic
import Mathlib.Data.List.Nodup
import Mathlib.Logic.Function.Basic

/-! A configuration value and its listeners (`ConfigVar` of `config.h`).

`setValue` compares and announces under the read lock and stores under the write lock, and
between the two the lock is free. Each locked section is a step here; any number of calls are
under way at once. What a listener is told stays as it is, so two calls that have announced
before either has stored leave a chain that does not fit (`Told.broken`); calls that announce
one at a time keep it (`Told`).

The values are of any type with an `operator==`, which `setValue` alone decides by. -/
namespace ShioSylar.Config
open Lib

variable {τ ι α : Type}

/-- `m_val` and the keys of `m_cbs`, in their order. -/
structure ConfigVar (ι α : Type) where
  val : α
  cbs : List ι
  nodup : cbs.Nodup

namespace ConfigVar
variable [BEq α]

/-- The section of `setValue` under the read lock: the calls of the listeners with the old and
the new value, or `none` where it returns. -/
def announce (c : ConfigVar ι α) (v : α) : Option (List (ι × α × α)) :=
  if v == c.val then none else some (c.cbs.map fun i => (i, c.val, v))

omit [BEq α] in
/-- The section of `setValue` under the write lock. -/
def store (c : ConfigVar ι α) (v : α) : ConfigVar ι α := { c with val := v }

end ConfigVar

/-- A value in use: which threads are between the two sections of `setValue`, and with what,
and every call of a listener so far. -/
structure State (τ ι α : Type) where
  var : ConfigVar ι α
  storing : τ → Option α
  calls : List (ι × α × α)

inductive Act (τ α : Type) where
  /-- A thread calls `setValue`, up to the end of the first section. -/
  | announce (t : τ) (v : α)
  /-- It takes the second section. -/
  | store (t : τ)

def start (var : ConfigVar ι α) : State τ ι α := ⟨var, fun _ => none, []⟩

section
variable [DecidableEq τ] [BEq α]

def step (s : State τ ι α) : Act τ α → Option (State τ ι α)
  | .announce t v =>
    if (s.storing t).isSome then none
    else
      match s.var.announce v with
      | none => some s
      | some calls => some { s with
          storing := Function.update s.storing t (some v), calls := s.calls ++ calls }
  | .store t => (s.storing t).map fun v =>
      { s with var := s.var.store v, storing := Function.update s.storing t none }

/-- A call announces only when no other one is between its sections. -/
def Alone (s : State τ ι α) : Act τ α → Prop
  | .announce _ v => (v == s.var.val) = true ∨ s.var.cbs = [] ∨ ∀ t, s.storing t = none
  | .store _ => True

end

/-! ### What a listener is told -/

/-- The old and new values that a listener was called with. -/
def State.told [DecidableEq ι] (s : State τ ι α) (i : ι) : List (α × α) :=
  (s.calls.filter (·.1 = i)).map (·.2)

/-- The first old value is `a`, and each later one is the new one before it. -/
def Chain : α → List (α × α) → Prop
  | _, [] => True
  | a, (old, new) :: rest => old = a ∧ Chain new rest

/-- The value a listener was told last, `a` if it was told none. -/
def last (a : α) : List (α × α) → α
  | [] => a
  | (_, new) :: rest => last new rest

theorem chain_append (a : α) (l m : List (α × α)) :
    Chain a (l ++ m) ↔ Chain a l ∧ Chain (last a l) m := by
  induction l generalizing a with
  | nil => simp [Chain, last]
  | cons p rest ih =>
    show p.1 = a ∧ Chain p.2 (rest ++ m) ↔ (p.1 = a ∧ Chain p.2 rest) ∧ Chain (last p.2 rest) m
    rw [ih, and_assoc]

theorem last_append (a : α) (l m : List (α × α)) : last a (l ++ m) = last (last a l) m := by
  induction l generalizing a with
  | nil => rfl
  | cons p rest ih => exact ih p.2

theorem last_of_getLast? {a : α} {l : List (α × α)} {p : α × α} (h : l.getLast? = some p) :
    last a l = p.2 := by
  obtain ⟨rest, rfl⟩ := List.getLast?_eq_some_iff.mp h
  rw [last_append]
  rfl

/-- Every listener has been told a chain from the first value to the present one. -/
def Agrees [DecidableEq ι] (init : α) (s : State τ ι α) : Prop :=
  ∀ i ∈ s.var.cbs, Chain init (s.told i) ∧ ∀ p, (s.told i).getLast? = some p → p.2 = s.var.val

/-! ### One at a time -/

section
variable [DecidableEq ι] {init : α} {s t : State τ ι α}

/-- A listener is called once for a new value. -/
theorem told_announce {v : α} {i : ι} (hi : i ∈ s.var.cbs)
    (ht : t.calls = s.calls ++ s.var.cbs.map fun j => (j, s.var.val, v)) :
    t.told i = s.told i ++ [(s.var.val, v)] := by
  have honce : ((s.var.cbs.map fun j => (j, s.var.val, v)).filter (·.1 = i)).map (·.2) =
      [(s.var.val, v)] := by
    have hfilter : s.var.cbs.filter (· = i) = [i] := by
      rw [List.filter_eq, List.count_eq_one_of_mem s.var.nodup hi]
      rfl
    rw [List.filter_map, List.map_map]
    exact congrArg (List.map fun _ => (s.var.val, v)) hfilter
  rw [State.told, ht, List.filter_append, List.map_append, honce]
  rfl

variable [BEq α]

/-- What holds as long as calls announce one at a time. -/
structure Told (init : α) (s : State τ ι α) : Prop where
  chain : ∀ i ∈ s.var.cbs, Chain init (s.told i)
  stored : (∀ u, s.storing u = none) → ∀ i ∈ s.var.cbs, last init (s.told i) = s.var.val
  storing : ∀ i ∈ s.var.cbs, ∀ u v, s.storing u = some v → last init (s.told i) = v ∧
    (v == s.var.val) = false ∧ ∀ u', (s.storing u').isSome = true → u' = u

theorem start_told (var : ConfigVar ι α) : Told var.val (start var : State τ ι α) :=
  ⟨fun _ _ => trivial, fun _ _ _ => rfl, fun _ _ _ _ h => nomatch h⟩

variable [DecidableEq τ]

omit [DecidableEq ι] in
/-- The two sections. -/
theorem step_cases {a : Act τ α} (h : step s a = some t) :
    (∃ u v, a = .announce u v ∧ (v == s.var.val) = true ∧ t = s) ∨
    (∃ u v, a = .announce u v ∧ (v == s.var.val) = false ∧ s.storing u = none ∧ t = { s with
      storing := Function.update s.storing u (some v)
      calls := s.calls ++ s.var.cbs.map fun i => (i, s.var.val, v) }) ∨
    ∃ u v, a = .store u ∧ s.storing u = some v ∧
      t = { s with var := s.var.store v, storing := Function.update s.storing u none } := by
  cases a with
  | announce u v =>
    obtain ⟨hu, h⟩ := Option.ite_none_left_eq_some.mp h
    cases heq : v == s.var.val with
    | true =>
      simp only [ConfigVar.announce, heq, if_true, Option.some.injEq] at h
      exact .inl ⟨u, v, rfl, heq, h.symm⟩
    | false =>
      simp only [ConfigVar.announce, heq, Bool.false_eq_true, if_false, Option.some.injEq] at h
      exact .inr (.inl ⟨u, v, rfl, heq, by simpa using hu, h.symm⟩)
  | store u =>
    obtain ⟨v, hv, rfl⟩ := Option.map_eq_some_iff.mp h
    exact .inr (.inr ⟨u, v, rfl, hv, rfl⟩)

omit [DecidableEq ι] in
theorem step_cbs {a : Act τ α} (h : step s a = some t) : t.var.cbs = s.var.cbs := by
  obtain ⟨u, v, -, -, rfl⟩ | ⟨u, v, -, -, -, rfl⟩ | ⟨u, v, -, -, rfl⟩ := step_cases h
  · rfl
  · rfl
  · rfl

/-- A call announces, with no other one under way. -/
theorem Told.announce (k : Told init s) {u : τ} {v : α} (hne : (v == s.var.val) = false)
    (hnone : s.var.cbs ≠ [] → ∀ u, s.storing u = none) : Told init { s with
      storing := Function.update s.storing u (some v)
      calls := s.calls ++ s.var.cbs.map fun i => (i, s.var.val, v) } := by
  have htold := fun i hi => told_announce (s := s) (v := v) (i := i) (t := { s with
    storing := Function.update s.storing u (some v)
    calls := s.calls ++ s.var.cbs.map fun i => (i, s.var.val, v) }) hi rfl
  refine ⟨fun i hi => ?_, fun hall => ?_, fun i hi u' v' hv' => ?_⟩
  · have hstored := k.stored (hnone (List.ne_nil_of_mem hi)) i hi
    rw [htold i hi, chain_append]
    exact ⟨k.chain i hi, hstored.symm, trivial⟩
  · have hu := hall u
    simp only [Function.update_self] at hu
    cases hu
  · have hone : ∀ u', (Function.update s.storing u (some v) u').isSome = true → u' = u := by
      intro u' hsome
      by_contra hu'
      rw [Function.update_of_ne hu', hnone (List.ne_nil_of_mem hi)] at hsome
      cases hsome
    have hv' : Function.update s.storing u (some v) u' = some v' := hv'
    obtain rfl := hone u' (by rw [hv']; rfl)
    rw [Function.update_self] at hv'
    cases hv'
    refine ⟨?_, hne, hone⟩
    rw [htold i hi, last_append]
    rfl

/-- The one call under way stores. -/
theorem Told.store (k : Told init s) {u : τ} {v : α} (hv : s.storing u = some v) : Told init { s with
      var := s.var.store v
      storing := Function.update s.storing u none } := by
  refine ⟨k.chain, fun _ i hi => (k.storing i hi u v hv).1, fun i hi u' v' hv' => ?_⟩
  have hv' : Function.update s.storing u none u' = some v' := hv'
  by_cases hu : u' = u
  · rw [hu, Function.update_self] at hv'
    cases hv'
  · rw [Function.update_of_ne hu] at hv'
    exact absurd ((k.storing i hi u v hv).2.2 u' (by rw [hv']; rfl)) hu

theorem step_told (s : State τ ι α) (a : Act τ α) (t : State τ ι α) (k : Told init s) (hg : Alone s a)
    (h : step s a = some t) : Told init t := by
  obtain ⟨u, v, -, -, rfl⟩ | ⟨u, v, rfl, hne, -, rfl⟩ | ⟨u, v, -, hv, rfl⟩ := step_cases h
  · exact k
  · refine k.announce hne fun hcbs => ?_
    obtain heq | hnil | hnone := hg
    · rw [hne] at heq
      cases heq
    · exact absurd hnil hcbs
    · exact hnone
  · exact k.store hv

/-! ### Two at a time -/

/-- A listener has been told what does not fit together. -/
def Broken (init : α) (s : State τ ι α) : Prop := ∃ i ∈ s.var.cbs, ¬ Chain init (s.told i)

/-- What has been told stays told. -/
theorem broken_kept (s : State τ ι α) (a : Act τ α) (t : State τ ι α) (k : Broken init s)
    (h : step s a = some t) : Broken init t := by
  obtain ⟨i, hi, hchain⟩ := k
  refine ⟨i, step_cbs h ▸ hi, fun hc => hchain ?_⟩
  obtain ⟨u, v, -, -, rfl⟩ | ⟨u, v, rfl, -, -, rfl⟩ | ⟨u, v, -, -, rfl⟩ := step_cases h
  · exact hc
  · rw [told_announce (s := s) (v := v) hi rfl, chain_append] at hc
    exact hc.1
  · exact hc

/-- A call that announces while another one is between its sections announces an old value
that is not the one announced last. -/
theorem told_broken (hrefl : ∀ v : α, (v == v) = true) (s : State τ ι α) (a : Act τ α) (t : State τ ι α)
    (k : Told init s) (hg : ¬ Alone s a) (h : step s a = some t) : Broken init t := by
  obtain ⟨u, v, rfl, heq, -⟩ | ⟨u, v, rfl, hne, -, rfl⟩ | ⟨u, v, rfl, -, -⟩ := step_cases h
  · exact absurd (.inl heq) hg
  · rw [Alone, not_or, not_or, not_forall] at hg
    obtain ⟨-, hcbs, u', hu'⟩ := hg
    obtain ⟨i, hi⟩ := List.exists_mem_of_ne_nil _ hcbs
    obtain ⟨v', hv'⟩ := Option.ne_none_iff_exists'.mp hu'
    obtain ⟨hlast, hne', -⟩ := k.storing i hi u' v' hv'
    refine ⟨i, hi, fun hc => ?_⟩
    rw [told_announce (s := s) (v := v) hi rfl, chain_append] at hc
    have hold : s.var.val = last init (s.told i) := hc.2.1
    rw [hold, hlast, hrefl v'] at hne'
    cases hne'
  · exact absurd trivial hg

/-- **Listeners agree.** Once all calls of `setValue` have returned, every listener has been told
a chain that ends in the value, if the calls announced one at a time. Where `operator==` is
reflexive, not otherwise. -/
theorem setValue_agrees (var : ConfigVar ι α) (acts : List (Act τ α)) (s : State τ ι α)
    (h : run step (start var) acts = some s) (hdone : ∀ t, s.storing t = none) :
    (Meets step Alone (start var) acts → Agrees var.val s) ∧
      ((∀ v : α, (v == v) = true) → Agrees var.val s → Meets step Alone (start var) acts) := by
  constructor
  · intro hm
    have k := run_invariant step_told (start_told var) hm h
    refine fun i hi => ⟨k.chain i hi, fun p hp => ?_⟩
    rw [← k.stored hdone i hi, last_of_getLast? hp]
  · intro hrefl hagrees
    refine meets_of_good (R := fun _ _ => True) (fun s a t hs _ => step_told s a t hs)
      (fun s a t hs _ => told_broken hrefl s a t hs) broken_kept (start_told var) (meets_true _ acts)
      h fun hb => ?_
    obtain ⟨i, hi, hchain⟩ := hb
    exact hchain (hagrees i hi).1

end

instance [Fintype τ] [BEq α] (s : State τ ι α) : (a : Act τ α) → Decidable (Alone s a)
  | .announce _ v => decidable_of_iff ((v == s.var.val) = true ∨ s.var.cbs.isEmpty = true ∨
      ∀ t, (s.storing t).isNone = true) (by simp [Alone])
  | .store _ => isTrue trivial

/-- One listener, such as the one that keeps `s_connect_timeout`. -/
def timeoutVar : ConfigVar Nat Nat := ⟨5000, [1], by decide⟩

/-- Two threads set the value one after the other. -/
theorem setValue_agrees_serial :
    ∃ s, run step (start timeoutVar)
        [Act.announce (0 : Fin 2) 1000, .store 0, .announce 1 2000, .announce 0 1000, .store 1] = some s ∧
      Agrees 5000 s := by
  have hrun : ∃ s, run step (start timeoutVar)
      [Act.announce (0 : Fin 2) 1000, .store 0, .announce 1 2000, .announce 0 1000, .store 1] = some s ∧
      ∀ t, s.storing t = none := ⟨_, rfl, by decide⟩
  obtain ⟨s, hs, hdone⟩ := hrun
  exact ⟨s, hs, (setValue_agrees timeoutVar _ s hs hdone).1 (by decide)⟩

/-- Two threads announce 1000 and 2000, and then 2000 is stored and 1000 after it: the listener
was told 2000 last, and twice that the old value is 5000. -/
theorem setValue_crossed :
    ∃ s, run step (start timeoutVar)
        [Act.announce (0 : Fin 2) 1000, .announce 1 2000, .store 1, .store 0] = some s ∧
      s.storing 0 = none ∧ s.storing 1 = none ∧ s.told 1 = [(5000, 1000), (5000, 2000)] ∧
      s.var.val = 1000 :=
  ⟨_, rfl, rfl, rfl, rfl, rfl⟩

end ShioSylar.Config
