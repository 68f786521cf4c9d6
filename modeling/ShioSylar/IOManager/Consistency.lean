import ShioSylar.IOManager.Table
import Mathlib.Algebra.BigOperators.Group.List.Basic
import Mathlib.Algebra.Order.BigOperators.Group.List
import Mathlib.Tactic.Ring

/-! What ties the event table together.

A context is seen by its descriptor (`view`); one that is not yet in the vector reads as
an empty one, which is what growing the vector puts there. `Consistent` says that the
vector is indexed by descriptor, that a slot is in use exactly when its bit is set, that
the kernel holds exactly the masks of the contexts, and that the counter is their number
of bits. Every operation that does anything writes one context, so preservation is one
lemma (`Consistent.write`): the new context has its slots in order, and the kernel's
entry and the counter follow it. -/
namespace ShioSylar.IOManager
open Scheduler

variable {σ φ κ : Type}

/-! ### Masks and contexts -/

namespace Mask

@[simp] theorem has_add (m : Mask) (e e' : Event) : (m.add e).has e' = (decide (e' = e) || m.has e') := by
  cases e <;> cases e' <;> simp [add, has]

@[simp] theorem has_remove (m : Mask) (e e' : Event) :
    (m.remove e).has e' = (!decide (e' = e) && m.has e') := by
  cases e <;> cases e' <;> simp [remove, has]

@[simp] theorem has_none (e : Event) : none.has e = false := by cases e <;> rfl

theorem has_inter (m k : Mask) (e : Event) : (m.inter k).has e = (m.has e && k.has e) := by
  cases e <;> rfl

theorem has_diff (m k : Mask) (e : Event) : (m.diff k).has e = (m.has e && !k.has e) := by
  cases e <;> rfl

theorem ext_has {m k : Mask} (h : ∀ e, m.has e = k.has e) : m = k := by
  cases m
  cases k
  exact congrArg₂ Mask.mk (h .read) (h .write)

theorem ne_none_of_has {m : Mask} {e : Event} (h : m.has e = true) : m ≠ none := by
  intro heq
  subst heq
  cases e <;> cases h

theorem add_ne_none (m : Mask) (e : Event) : m.add e ≠ none :=
  ne_none_of_has (e := e) (by simp)

theorem exists_has {m : Mask} (h : m ≠ none) : ∃ e, m.has e = true := by
  by_contra hall
  refine h (ext_has fun e => ?_)
  cases he : m.has e
  · simp
  · exact absurd ⟨e, he⟩ hall

theorem count_add {m : Mask} {e : Event} (h : m.has e = false) : (m.add e).count = m.count + 1 := by
  cases e <;> simp only [has] at h <;> simp [add, count, h]
  omega

theorem count_remove {m : Mask} {e : Event} (h : m.has e = true) :
    (m.remove e).count + 1 = m.count := by
  cases e <;> simp only [has] at h <;> simp [remove, count, h]
  omega

end Mask

namespace FdContext

@[simp] theorem getContext_setContext (ctx : FdContext σ φ κ) (e e' : Event) (c : EventContext σ φ κ) :
    (ctx.setContext e c).getContext e' = if e' = e then c else ctx.getContext e' := by
  cases e <;> cases e' <;> rfl

@[simp] theorem events_setContext (ctx : FdContext σ φ κ) (e : Event) (c : EventContext σ φ κ) :
    (ctx.setContext e c).events = ctx.events := by cases e <;> rfl

@[simp] theorem fd_setContext (ctx : FdContext σ φ κ) (e : Event) (c : EventContext σ φ κ) :
    (ctx.setContext e c).fd = ctx.fd := by cases e <;> rfl

@[simp] theorem getContext_events (ctx : FdContext σ φ κ) (m : Mask) (e : Event) :
    ({ ctx with events := m } : FdContext σ φ κ).getContext e = ctx.getContext e := by cases e <;> rfl

/-- A direction armed with a slot. -/
def arm (ctx : FdContext σ φ κ) (e : Event) (c : EventContext σ φ κ) : FdContext σ φ κ :=
  { ctx with events := ctx.events.add e }.setContext e c

/-- A direction taken off, its slot empty. -/
def disarm (ctx : FdContext σ φ κ) (e : Event) : FdContext σ φ κ :=
  { ctx with events := ctx.events.remove e }.setContext e {}

end FdContext

/-- A slot in use: one of fiber and callback. -/
def EventContext.Used (c : EventContext σ φ κ) : Prop := c.cb.isSome = !c.fiber.isSome

/-- The slots of a context agree with its mask. -/
def FdContext.Slots (ctx : FdContext σ φ κ) : Prop :=
  ∀ e, if ctx.events.has e then (ctx.getContext e).Used else ctx.getContext e = {}

theorem FdContext.slots_arm {ctx : FdContext σ φ κ} (h : ctx.Slots) (e : Event)
    {c : EventContext σ φ κ} (hc : c.Used) : (ctx.arm e c).Slots := by
  intro e'
  have he' := h e'
  by_cases heq : e' = e
  · simp [arm, heq, hc]
  · simpa [arm, heq] using he'

theorem FdContext.slots_disarm {ctx : FdContext σ φ κ} (h : ctx.Slots) (e : Event) :
    (ctx.disarm e).Slots := by
  intro e'
  have he' := h e'
  by_cases heq : e' = e
  · simp [disarm, heq]
  · simpa [disarm, heq] using he'

/-- The task of a slot: the callback if there is one, else the fiber. -/
def EventContext.task (c : EventContext σ φ κ) : FiberAndThread φ κ :=
  if c.cb.isSome then { cb := c.cb } else { fiber := c.fiber }

theorem EventContext.Used.nonempty {c : EventContext σ φ κ} (h : c.Used) : c.task.nonempty = true := by
  unfold Used at h
  unfold task FiberAndThread.nonempty
  cases hcb : c.cb <;> simp_all

/-! ### The table -/

namespace State

/-- The context of a descriptor. -/
def view (s : State σ φ κ) (fd : Nat) : FdContext σ φ κ :=
  match s.fdContexts[fd]? with
  | some p => s.contexts p
  | none => { fd := fd }

/-- The number of armed events over all descriptors. -/
def armed (s : State σ φ κ) : Int :=
  (s.fdContexts.map fun p => ((s.contexts p).events.count : Int)).sum

theorem armed_nonneg (s : State σ φ κ) : 0 ≤ s.armed := by
  refine List.sum_nonneg fun x hx => ?_
  obtain ⟨p, -, rfl⟩ := List.mem_map.mp hx
  exact Int.natCast_nonneg _

/-- Where no bit is counted, none is set. -/
theorem armed_zero {s : State σ φ κ} (h : s.armed = 0) (fd : Nat) (e : Event) :
    (s.view fd).events.has e = false := by
  unfold view
  split
  · rename_i p hp
    have hpos : ∀ x ∈ s.fdContexts.map fun p => ((s.contexts p).events.count : Int), 0 ≤ x := by
      intro x hx
      obtain ⟨p, -, rfl⟩ := List.mem_map.mp hx
      exact Int.natCast_nonneg _
    have hzero := List.all_zero_of_le_zero_le_of_sum_eq_zero hpos h
      (List.mem_map.mpr ⟨p, List.mem_of_getElem? hp, rfl⟩)
    cases e <;> cases hr : (s.contexts p).events.read <;> cases hw : (s.contexts p).events.write <;>
      simp_all [Mask.count, Mask.has]
  · cases e <;> rfl

theorem view_of_get {s : State σ φ κ} {fd p : Nat} (h : s.fdContexts[fd]? = some p) :
    s.view fd = s.contexts p := by
  simp [view, h]

end State

/-- The vector holds one context for each of its places. -/
structure Indexed (s : State σ φ κ) : Prop where
  size : 32 ≤ s.fdContexts.length
  place : ∀ fd p, s.fdContexts[fd]? = some p → p < s.allocated ∧ (s.contexts p).fd = fd

theorem Indexed.inj {s : State σ φ κ} (h : Indexed s) {fd fd' p : Nat}
    (hp : s.fdContexts[fd]? = some p) (hp' : s.fdContexts[fd']? = some p) : fd = fd' :=
  (h.place fd p hp).2.symm.trans (h.place fd' p hp').2

theorem Indexed.nodup {s : State σ φ κ} (h : Indexed s) : s.fdContexts.Nodup := by
  refine List.pairwise_iff_getElem.mpr fun i j hi hj hij heq => ?_
  have hp : s.fdContexts[i]? = some (s.fdContexts[j]) := heq ▸ List.getElem?_eq_getElem hi
  exact absurd (h.inj hp (List.getElem?_eq_getElem hj)) (Nat.ne_of_lt hij)

/-- What the kernel should hold for a descriptor. -/
def registered (s : State σ φ κ) (fd : Nat) : Option (Mask × Nat) :=
  if (s.view fd).events = Mask.none then none
  else s.fdContexts[fd]?.map fun p => ((s.view fd).events, p)

structure Consistent (s : State σ φ κ) : Prop extends Indexed s where
  slots : ∀ fd, (s.view fd).Slots
  kernel : ∀ fd, s.interest fd = registered s fd
  count : s.pendingEventCount = s.armed

/-- From `s` to `s'` nothing changed but that the vector may have grown. -/
structure Same (s s' : State σ φ κ) : Prop where
  view : s'.view = s.view
  interest : s'.interest = s.interest
  pendingEventCount : s'.pendingEventCount = s.pendingEventCount
  fibers : s'.fibers = s.fibers
  extends_ : s.fdContexts <+: s'.fdContexts

theorem Same.refl (s : State σ φ κ) : Same s s := ⟨rfl, rfl, rfl, rfl, List.prefix_rfl⟩

/-- The sum over the vector after one context was written. -/
theorem sum_write {l : List Nat} {p : Nat} (hnd : l.Nodup) (hp : p ∈ l) (f : Nat → Int) (x : Int) :
    (l.map (Function.update f p x)).sum = (l.map f).sum + (x - f p) := by
  rw [← List.sum_map_erase _ hp, ← List.sum_map_erase f hp, Function.update_self]
  have hmap : (l.erase p).map (Function.update f p x) = (l.erase p).map f := by
    refine List.map_congr_left fun q hq => Function.update_of_ne ?_ _ _
    intro heq
    subst heq
    exact hnd.not_mem_erase hq
  rw [hmap]
  ring

/-- The context of `fd`, at `p`, is written; the kernel's entry and the counter follow. -/
def State.write (s : State σ φ κ) (fd p : Nat) (ctx : FdContext σ φ κ)
    (fibers : σ → List (FiberAndThread φ κ)) : State σ φ κ :=
  { s with
    contexts := Function.update s.contexts p ctx
    pendingEventCount :=
      s.pendingEventCount + ((ctx.events.count : Int) - ((s.contexts p).events.count : Int))
    interest := Function.update s.interest fd
      (if ctx.events = Mask.none then none else some (ctx.events, p))
    fibers := fibers }

section
variable {s : State σ φ κ} {fd p : Nat} (h : Consistent s) (hp : s.fdContexts[fd]? = some p)
  (ctx : FdContext σ φ κ) (fibers : σ → List (FiberAndThread φ κ))
include h hp

theorem write_view : (s.write fd p ctx fibers).view = Function.update s.view fd ctx := by
  funext fd'
  by_cases hfd' : fd' = fd
  · subst hfd'
    have hp' : (s.write fd' p ctx fibers).fdContexts[fd']? = some p := hp
    rw [Function.update_self, State.view_of_get hp']
    exact Function.update_self ..
  · rw [Function.update_of_ne hfd']
    simp only [State.view, State.write]
    split
    · rename_i q hq
      exact Function.update_of_ne (fun heq => hfd' (h.inj (heq ▸ hq) hp)) ..
    · rfl

theorem write_armed : (s.write fd p ctx fibers).armed =
    s.armed + ((ctx.events.count : Int) - ((s.contexts p).events.count : Int)) := by
  have hmap : (fun q => (((s.write fd p ctx fibers).contexts q).events.count : Int)) =
      Function.update (fun q => ((s.contexts q).events.count : Int)) p (ctx.events.count : Int) := by
    funext q
    by_cases hqp : q = p <;> simp [State.write, hqp]
  unfold State.armed
  rw [hmap]
  exact sum_write h.nodup (List.mem_of_getElem? hp) _ _

theorem Consistent.write (hfd : ctx.fd = fd) (hslots : ctx.Slots) :
    Consistent (s.write fd p ctx fibers) := by
  have hview := write_view h hp ctx fibers
  refine ⟨⟨h.size, fun fd' q hq => ?_⟩, fun fd' => ?_, fun fd' => ?_, ?_⟩
  · obtain ⟨hlt, hq'⟩ := h.place fd' q hq
    refine ⟨hlt, ?_⟩
    by_cases hqp : q = p
    · subst hqp
      simp only [State.write, Function.update_self, hfd]
      exact h.inj hp hq
    · simpa only [State.write, Function.update_of_ne hqp] using hq'
  · rw [hview]
    by_cases hfd' : fd' = fd
    · subst hfd'
      rwa [Function.update_self]
    · rw [Function.update_of_ne hfd']
      exact h.slots fd'
  · rw [registered, hview]
    by_cases hfd' : fd' = fd
    · subst hfd'
      simp only [State.write, Function.update_self, hp]
      rfl
    · simp only [State.write, Function.update_of_ne hfd']
      exact h.kernel fd'
  · rw [write_armed h hp, ← h.count]
    rfl

end

/-! ### The first table -/

theorem init_view (fd : Nat) : (State.init : State σ φ κ).view fd = { fd := fd } := by
  unfold State.view
  cases hp : (State.init : State σ φ κ).fdContexts[fd]? with
  | none => rfl
  | some p =>
    rw [State.init, State.contextResize] at hp
    obtain ⟨hlt, hget⟩ := List.getElem?_eq_some_iff.mp hp
    simp at hlt hget
    subst hget
    simp [State.init, State.contextResize, hlt]

theorem init_consistent : Consistent (State.init : State σ φ κ) := by
  have hget : ∀ fd p, (State.init : State σ φ κ).fdContexts[fd]? = some p → p = fd ∧ fd < 32 := by
    intro fd p hp
    rw [State.init, State.contextResize] at hp
    obtain ⟨hlt, hget⟩ := List.getElem?_eq_some_iff.mp hp
    simp at hlt hget
    exact ⟨hget.symm, hlt⟩
  have hnone : ∀ p, ((State.init : State σ φ κ).contexts p).events = Mask.none := by
    intro p
    simp only [State.init, State.contextResize]
    split <;> rfl
  have harmed : (State.init : State σ φ κ).armed = 0 := by
    simp [State.armed, hnone, Mask.count, Mask.none]
  refine ⟨⟨?_, fun fd p hp => ?_⟩, fun fd => ?_, fun fd => ?_, harmed.symm⟩
  · simp [State.init, State.contextResize]
  · obtain ⟨rfl, hlt⟩ := hget fd p hp
    have hview := init_view (σ := σ) (φ := φ) (κ := κ) p
    rw [State.view_of_get hp] at hview
    exact ⟨hlt, by rw [hview]⟩
  · rw [init_view]
    intro e
    cases e <;> rfl
  · rw [registered, init_view, if_pos rfl]
    rfl

end ShioSylar.IOManager
