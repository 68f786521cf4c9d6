import ShioSylar.IOManager.Effects
import ShioSylar.Lib.Run

/-! Runs of calls on the event table.

`Op` is a call, with whether `epoll_ctl` would succeed in it; the dispatch is of one
report for a descriptor of the vector. `exec` makes a call and `Outcome` lists what it
can come to. A `Process` carries the table, the calls it made with their answers, and the
fault that ended it. -/
namespace ShioSylar.IOManager
open Scheduler Lib

variable {σ φ κ : Type}

inductive Op (σ φ κ : Type) where
  | addEvent (fd : Nat) (event : Event) (who : Caller σ φ) (cb : Option κ) (ok : Bool)
  | delEvent (fd : Nat) (event : Event) (ok : Bool)
  | cancelEvent (fd : Nat) (event : Event) (ok : Bool)
  | cancelAll (fd : Nat) (ok : Bool)
  | dispatch (fd : Nat) (r : Report) (ok : Bool)

/-- What a call answers: returned 0 or true, or the directions the dispatch triggered. -/
inductive Answer where
  | returned (success : Bool)
  | triggered (mask : Mask)
  deriving DecidableEq

def Answer.failed : Answer → Prop
  | .returned success => success = false
  | .triggered mask => mask = Mask.none

/-- One call. -/
def exec [DecidableEq σ] (s : State σ φ κ) : Op σ φ κ → Except Fault (Answer × State σ φ κ)
  | .addEvent fd e who cb ok => (s.addEvent fd e who cb ok).map fun r => (.returned r.1, r.2)
  | .delEvent fd e ok => .ok (.returned (s.delEvent fd e ok).1, (s.delEvent fd e ok).2)
  | .cancelEvent fd e ok => (s.cancelEvent fd e ok).map fun r => (.returned r.1, r.2)
  | .cancelAll fd ok => (s.cancelAll fd ok).map fun r => (.returned r.1, r.2)
  | .dispatch fd r ok =>
    match s.fdContexts[fd]? with
    | none => .ok (.triggered Mask.none, s)
    | some p => (s.dispatch p r ok).map fun r => (.triggered r.1, r.2)

/-- The caller has a scheduler. -/
def Op.Scheduled : Op σ φ κ → Prop
  | .addEvent _ _ who _ _ => who.scheduler.isSome = true
  | _ => True

/-- The caller has a scheduler, and a report has only armed directions. -/
def Op.Valid (s : State σ φ κ) : Op σ φ κ → Prop
  | .addEvent _ _ who _ _ => who.scheduler.isSome = true
  | .dispatch fd r _ =>
    ∀ e, (r.realEvents (s.view fd).events).has e = true → (s.view fd).events.has e = true
  | _ => True

/-- A direction is not armed twice. -/
def Op.Fresh (s : State σ φ κ) : Op σ φ κ → Prop
  | .addEvent fd e _ _ _ => (s.view fd).events.has e = false
  | _ => True

instance (s : State σ φ κ) : (op : Op σ φ κ) → Decidable (op.Valid s)
  | .addEvent _ _ who _ _ => inferInstanceAs (Decidable (who.scheduler.isSome = true))
  | .delEvent _ _ _ => isTrue trivial
  | .cancelEvent _ _ _ => isTrue trivial
  | .cancelAll _ _ => isTrue trivial
  | .dispatch fd r _ => inferInstanceAs (Decidable (∀ e,
      (r.realEvents (s.view fd).events).has e = true → (s.view fd).events.has e = true))

instance (s : State σ φ κ) : (op : Op σ φ κ) → Decidable (op.Fresh s)
  | .addEvent fd e _ _ _ => inferInstanceAs (Decidable ((s.view fd).events.has e = false))
  | .delEvent _ _ _ => isTrue trivial
  | .cancelEvent _ _ _ => isTrue trivial
  | .cancelAll _ _ => isTrue trivial
  | .dispatch _ _ _ => isTrue trivial

structure Process (σ φ κ : Type) where
  table : State σ φ κ
  /-- The calls that came back and their answers, oldest first. -/
  log : List (Op σ φ κ × Answer)
  fault : Option Fault

def Process.start : Process σ φ κ := ⟨State.init, [], none⟩

def step [DecidableEq σ] (p : Process σ φ κ) (op : Op σ φ κ) : Option (Process σ φ κ) :=
  if p.fault.isSome then none
  else match exec p.table op with
    | .ok (a, s) => some ⟨s, p.log ++ [(op, a)], none⟩
    | .error f => some { p with fault := some f }

/-! ### What a call comes to -/

/-- The directions a call is about to trigger, and what it answers then. -/
def Op.takes (s : State σ φ κ) : Op σ φ κ → Option (Nat × Mask × Answer)
  | .cancelEvent fd e ok =>
    if (s.view fd).events.has e = true ∧ ok = true then some (fd, Mask.only e, .returned true) else none
  | .cancelAll fd ok =>
    if (s.view fd).events ≠ Mask.none ∧ ok = true then some (fd, (s.view fd).events, .returned true)
    else none
  | .dispatch fd r ok =>
    let real := r.realEvents (s.view fd).events
    if (s.view fd).events.inter real ≠ Mask.none ∧ ok = true then some (fd, real, .triggered real)
    else none
  | _ => none

/-- The outcomes of a call on a consistent table. -/
inductive Outcome [DecidableEq σ] (s : State σ φ κ) :
    Op σ φ κ → Except Fault (Answer × State σ φ κ) → Prop
  | skipped {op a u} (ha : a.failed) (hu : Consistent u) (hs : Same s u) : Outcome s op (.ok (a, u))
  | armed {fd e who cb u} (he : (s.view fd).events.has e = false) (hu : Consistent u) (hs : Same s u)
      (hfd : fd < u.fdContexts.length) :
      Outcome s (.addEvent fd e who cb true)
        (.ok (.returned true, u.put fd ((s.view fd).arm e (slotOf who cb)) s.fibers))
  | armedTwice {fd e who cb ok} (he : (s.view fd).events.has e = true) :
      Outcome s (.addEvent fd e who cb ok) (.error .assertion)
  | dropped {fd e} (he : (s.view fd).events.has e = true) :
      Outcome s (.delEvent fd e true)
        (.ok (.returned true, s.put fd ((s.view fd).disarm e) s.fibers))
  | took {op fd m a} (hop : op.takes s = some (fd, m, a)) (hm : (s.view fd).faultMask m = none) :
      Outcome s op (.ok (a, s.take fd m))
  | crashed {op fd m a f} (hop : op.takes s = some (fd, m, a)) (hm : (s.view fd).faultMask m = some f) :
      Outcome s op (.error f)

theorem only_has {e e' : Event} : (Mask.only e).has e' = true ↔ e' = e := by
  simp [Mask.only]

/-- What is triggered is of a context of the vector. -/
theorem Op.takes_lt {s : State σ φ κ} {op : Op σ φ κ} {fd : Nat} {m : Mask} {a : Answer}
    (h : op.takes s = some (fd, m, a)) : fd < s.fdContexts.length ∧ (s.view fd).events ≠ Mask.none := by
  suffices hne : (s.view fd).events ≠ Mask.none from
    (Mask.exists_has hne).elim fun e he => ⟨lt_of_armed he, hne⟩
  cases op with
  | addEvent fd' e who cb ok => cases h
  | delEvent fd' e ok => cases h
  | cancelEvent fd' e ok =>
    obtain ⟨⟨he, -⟩, heq⟩ := Option.ite_none_right_eq_some.mp h
    cases heq
    exact Mask.ne_none_of_has he
  | cancelAll fd' ok =>
    obtain ⟨⟨hne, -⟩, heq⟩ := Option.ite_none_right_eq_some.mp h
    cases heq
    exact hne
  | dispatch fd' r ok =>
    obtain ⟨⟨hne, -⟩, heq⟩ := Option.ite_none_right_eq_some.mp h
    cases heq
    intro hnone
    rw [hnone] at hne
    exact hne rfl

/-- A call that triggers something answers so. -/
theorem Op.takes_answer {s : State σ φ κ} {op : Op σ φ κ} {fd : Nat} {m : Mask} {a : Answer}
    (h : op.takes s = some (fd, m, a)) : ¬ a.failed := by
  cases op with
  | addEvent fd' e who cb ok => cases h
  | delEvent fd' e ok => cases h
  | cancelEvent fd' e ok =>
    obtain ⟨-, heq⟩ := Option.ite_none_right_eq_some.mp h
    cases heq
    exact Bool.noConfusion
  | cancelAll fd' ok =>
    obtain ⟨-, heq⟩ := Option.ite_none_right_eq_some.mp h
    cases heq
    exact Bool.noConfusion
  | dispatch fd' r ok =>
    obtain ⟨⟨hne, -⟩, heq⟩ := Option.ite_none_right_eq_some.mp h
    cases heq
    intro hnone
    have hnone : r.realEvents (s.view fd).events = Mask.none := hnone
    exact hne (Mask.ext_has fun e => by rw [Mask.has_inter, hnone, Mask.has_none, Bool.and_false])

section
variable [DecidableEq σ] {s : State σ φ κ}

theorem exec_outcome (h : Consistent s) (op : Op σ φ κ) : Outcome s op (exec s op) := by
  cases op with
  | addEvent fd e who cb ok =>
    obtain ⟨u, hu, hsame, hfd, hadd⟩ := addEvent_spec h fd e who cb ok
    simp only [exec, hadd]
    cases he : (s.view fd).events.has e with
    | true => exact .armedTwice he
    | false =>
      cases ok with
      | false => exact .skipped rfl hu hsame
      | true =>
        simp only [Bool.false_eq_true, Bool.true_eq_false, if_false, Except.map]
        rw [hsame.view, hsame.fibers]
        exact .armed he hu hsame hfd
  | delEvent fd e ok =>
    simp only [exec, delEvent_spec h]
    cases he : (s.view fd).events.has e <;> cases ok <;>
      simp only [true_or, or_true, or_self, if_true, Bool.true_eq_false, if_false]
    · exact .skipped rfl h (Same.refl s)
    · exact .skipped rfl h (Same.refl s)
    · exact .skipped rfl h (Same.refl s)
    · exact .dropped he
  | cancelEvent fd e ok =>
    simp only [exec, cancelEvent_spec h]
    by_cases hskip : (s.view fd).events.has e = false ∨ ok = false
    · rw [if_pos hskip]
      exact .skipped rfl h (Same.refl s)
    · have htakes : (Op.cancelEvent fd e ok : Op σ φ κ).takes s = some (fd, Mask.only e, .returned true) :=
        if_pos (by simpa using hskip)
      rw [if_neg hskip]
      cases hm : (s.view fd).faultMask (Mask.only e) with
      | none => exact .took htakes hm
      | some f => exact .crashed htakes hm
  | cancelAll fd ok =>
    simp only [exec, cancelAll_spec h]
    by_cases hskip : (s.view fd).events = Mask.none ∨ ok = false
    · rw [if_pos hskip]
      exact .skipped rfl h (Same.refl s)
    · have htakes : (Op.cancelAll fd ok : Op σ φ κ).takes s =
          some (fd, (s.view fd).events, .returned true) := if_pos (by simpa using hskip)
      rw [if_neg hskip]
      cases hm : (s.view fd).faultMask (s.view fd).events with
      | none => exact .took htakes hm
      | some f => exact .crashed htakes hm
  | dispatch fd r ok =>
    simp only [exec]
    cases hp : s.fdContexts[fd]? with
    | none => exact .skipped rfl h (Same.refl s)
    | some p =>
      simp only [dispatch_spec h hp]
      by_cases hskip : (s.view fd).events.inter (r.realEvents (s.view fd).events) = Mask.none ∨ ok = false
      · rw [if_pos hskip]
        exact .skipped rfl h (Same.refl s)
      · have htakes : (Op.dispatch fd r ok : Op σ φ κ).takes s = some (fd,
            r.realEvents (s.view fd).events, .triggered (r.realEvents (s.view fd).events)) :=
          if_pos (by simpa using hskip)
        rw [if_neg hskip]
        cases hm : (s.view fd).faultMask (r.realEvents (s.view fd).events) with
        | none => exact .took htakes hm
        | some f => exact .crashed htakes hm

/-- A call keeps the table consistent, and the vector only grows. -/
theorem Outcome.consistent (h : Consistent s) {op : Op σ φ κ} {a : Answer} {u : State σ φ κ}
    (hout : Outcome s op (.ok (a, u))) : Consistent u ∧ s.fdContexts <+: u.fdContexts := by
  cases hout with
  | skipped ha hu hs => exact ⟨hu, hs.extends_⟩
  | @armed fd e who cb u he hu hs hfd =>
    refine ⟨?_, hs.extends_⟩
    rw [← hs.view]
    exact put_consistent hu hfd (fd_arm ..) (FdContext.slots_arm (hu.slots fd) e (slotOf_used who cb)) _
  | @dropped fd e he =>
    exact ⟨put_consistent h (lt_of_armed he) (fd_disarm ..) (FdContext.slots_disarm (h.slots fd) e) _,
      List.prefix_rfl⟩
  | took hop hm => exact ⟨take_consistent h (Op.takes_lt hop).1 _, List.prefix_rfl⟩

/-! ### Schedulers -/

/-- Every armed slot has a scheduler. -/
def Owned (s : State σ φ κ) : Prop :=
  ∀ fd e, (s.view fd).events.has e = true → ((s.view fd).getContext e).scheduler.isSome = true

omit [DecidableEq σ] in
theorem Owned.faultMask (ho : Owned s) {fd : Nat} {m : Mask}
    (hm : ∀ e, m.has e = true → (s.view fd).events.has e = true) : (s.view fd).faultMask m = none :=
  FdContext.faultMask_none.mpr fun e he => ⟨hm e he, ho fd e (hm e he)⟩

omit [DecidableEq σ] in
/-- What a valid call triggers is armed. -/
theorem Op.Valid.takes_armed {op : Op σ φ κ} (hv : op.Valid s) {fd : Nat} {m : Mask} {a : Answer}
    (h : op.takes s = some (fd, m, a)) : ∀ e, m.has e = true → (s.view fd).events.has e = true := by
  cases op with
  | addEvent fd' e who cb ok => cases h
  | delEvent fd' e ok => cases h
  | cancelEvent fd' e ok =>
    obtain ⟨⟨he, -⟩, heq⟩ := Option.ite_none_right_eq_some.mp h
    cases heq
    exact fun e' he' => only_has.mp he' ▸ he
  | cancelAll fd' ok =>
    obtain ⟨-, heq⟩ := Option.ite_none_right_eq_some.mp h
    cases heq
    exact fun e he => he
  | dispatch fd' r ok =>
    obtain ⟨-, heq⟩ := Option.ite_none_right_eq_some.mp h
    cases heq
    exact hv

omit [DecidableEq σ] in
theorem Same.owned {u : State σ φ κ} (hs : Same s u) (ho : Owned s) : Owned u := by
  intro fd e he
  rw [hs.view] at he ⊢
  exact ho fd e he

omit [DecidableEq σ] in
theorem Owned.put (h : Consistent s) (ho : Owned s) {fd : Nat} (hfd : fd < s.fdContexts.length)
    {ctx : FdContext σ φ κ} (fibers : σ → List (FiberAndThread φ κ))
    (hctx : ∀ e, ctx.events.has e = true → (ctx.getContext e).scheduler.isSome = true) :
    Owned (s.put fd ctx fibers) := by
  intro fd' e
  rw [put_view h hfd]
  by_cases heq : fd' = fd
  · subst heq
    rw [Function.update_self]
    exact hctx e
  · rw [Function.update_of_ne heq]
    exact ho fd' e

omit [DecidableEq σ] in
theorem owned_disarm {ctx : FdContext σ φ κ} {e : Event}
    (h : ∀ e, ctx.events.has e = true → (ctx.getContext e).scheduler.isSome = true) :
    ∀ e', (ctx.disarm e).events.has e' = true → ((ctx.disarm e).getContext e').scheduler.isSome = true := by
  intro e' he'
  rw [events_disarm, Mask.has_remove] at he'
  have hne : e' ≠ e := by
    intro heq
    subst heq
    simp at he'
  rw [(fault_disarm ctx hne).2]
  exact h e' (by simpa [hne] using he')

omit [DecidableEq σ] in
theorem owned_disarmMask {ctx : FdContext σ φ κ} (m : Mask)
    (h : ∀ e, ctx.events.has e = true → (ctx.getContext e).scheduler.isSome = true) :
    ∀ e, (ctx.disarmMask m).events.has e = true →
      ((ctx.disarmMask m).getContext e).scheduler.isSome = true := by
  unfold FdContext.disarmMask
  cases m.has .read <;> cases m.has .write
  · exact h
  · exact owned_disarm h
  · exact owned_disarm h
  · exact owned_disarm (owned_disarm h)

omit [DecidableEq σ] in
theorem Op.Valid.scheduled {op : Op σ φ κ} (hv : op.Valid s) : op.Scheduled := by
  cases op with
  | addEvent fd e who cb ok => exact hv
  | _ => trivial

/-- A call of a thread with a scheduler keeps the slots owned. -/
theorem Outcome.owned (h : Consistent s) (ho : Owned s) {op : Op σ φ κ} (hv : op.Scheduled)
    {a : Answer} {u : State σ φ κ} (hout : Outcome s op (.ok (a, u))) : Owned u := by
  cases hout with
  | skipped ha hu hs => exact hs.owned ho
  | @armed fd e who cb u he hu hs hfd =>
    rw [← hs.view]
    refine (hs.owned ho).put hu hfd _ fun e' he' => ?_
    have hsched : who.scheduler.isSome = true := hv
    by_cases heq : e' = e
    · simpa [FdContext.arm, heq] using hsched
    · rw [events_arm, Mask.has_add] at he'
      simpa [FdContext.arm, heq] using hs.owned ho fd e' (by simpa [heq] using he')
  | @dropped fd e he => exact ho.put h (lt_of_armed he) _ (owned_disarm (ho fd))
  | @took op fd m a hop hm => exact ho.put h (Op.takes_lt hop).1 _ (owned_disarmMask m (ho fd))

/-! ### The table in every reachable state -/

omit [DecidableEq σ] in
theorem init_owned : Owned (State.init : State σ φ κ) := by
  intro fd e he
  rw [init_view] at he
  cases e <;> cases he

/-- A call that fails changes nothing but the length of the vector. -/
theorem exec_failed (h : Consistent s) {op : Op σ φ κ} {a : Answer} {u : State σ φ κ} (he : exec s op = .ok (a, u)) (ha : a.failed) :
    u.view = s.view ∧ u.interest = s.interest ∧ u.pendingEventCount = s.pendingEventCount ∧
      u.fibers = s.fibers := by
  have hout := he ▸ exec_outcome h op
  cases hout with
  | skipped _ hu hs => exact ⟨hs.view, hs.interest, hs.pendingEventCount, hs.fibers⟩
  | took hop hm => exact absurd ha (Op.takes_answer hop)
  | _ => cases ha

/-- What a process keeps. -/
structure Sound (p : Process σ φ κ) : Prop where
  consistent : Consistent p.table
  owned : Owned p.table

theorem step_cases {p q : Process σ φ κ} {op : Op σ φ κ} (h : step p op = some q) :
    p.fault = none ∧
      ((∃ a u, exec p.table op = .ok (a, u) ∧ q = ⟨u, p.log ++ [(op, a)], none⟩) ∨
        ∃ f, exec p.table op = .error f ∧ q = { p with fault := some f }) := by
  unfold step at h
  cases hf : p.fault with
  | some f => simp [hf] at h
  | none =>
    refine ⟨rfl, ?_⟩
    simp only [hf, Option.isSome_none, Bool.false_eq_true, if_false] at h
    cases he : exec p.table op with
    | ok r =>
      rw [he] at h
      exact .inl ⟨r.1, r.2, rfl, (Option.some.inj h).symm⟩
    | error f =>
      rw [he] at h
      exact .inr ⟨f, rfl, (Option.some.inj h).symm⟩

theorem step_sound {p q : Process σ φ κ} {op : Op σ φ κ} (hp : Sound p) (hv : op.Valid p.table)
    (h : step p op = some q) : Sound q := by
  obtain ⟨-, ⟨a, u, he, rfl⟩ | ⟨f, -, rfl⟩⟩ := step_cases h
  · have hout := he ▸ exec_outcome hp.consistent op
    exact ⟨(hout.consistent hp.consistent).1, hout.owned hp.consistent hp.owned hv.scheduled⟩
  · exact ⟨hp.consistent, hp.owned⟩

/-- A valid and fresh call comes back. -/
theorem step_no_fault {p q : Process σ φ κ} {op : Op σ φ κ} (hp : Sound p) (hv : op.Valid p.table)
    (hfresh : op.Fresh p.table) (h : step p op = some q) : q.fault = none := by
  obtain ⟨-, ⟨a, u, -, rfl⟩ | ⟨f, he, -⟩⟩ := step_cases h
  · rfl
  · have hout := he ▸ exec_outcome hp.consistent op
    cases hout with
    | armedTwice harmed => exact absurd (hfresh.symm.trans harmed) (by simp)
    | crashed hop hm => cases hm.symm.trans (hp.owned.faultMask (hv.takes_armed hop))

omit [DecidableEq σ] in
theorem start_sound : Sound (Process.start : Process σ φ κ) := ⟨init_consistent, init_owned⟩

/-- What the event table promises of a process. -/
structure Accurate (p : Process σ φ κ) : Prop where
  alive : p.fault = none
  counter : p.table.pendingEventCount = p.table.armed
  no_underflow : 0 ≤ p.table.pendingEventCount
  kernel : ∀ fd, (p.table.interest fd).map Prod.fst =
    if (p.table.view fd).events = Mask.none then none else some (p.table.view fd).events
  add_legal : ∀ fd, Legal (p.table.interest fd) (addOp (p.table.view fd).events) = true
  leave_legal : ∀ fd, (p.table.view fd).events ≠ Mask.none →
    (∀ left, Legal (p.table.interest fd) (leaveOp left) = true) ∧
      Legal (p.table.interest fd) .del = true
  armed : ∀ fd e, (p.table.view fd).events.has e = true →
    ((p.table.view fd).getContext e).scheduler.isSome = true ∧
      ((p.table.view fd).getContext e).cb.isSome = !((p.table.view fd).getContext e).fiber.isSome
  unarmed : ∀ fd e, (p.table.view fd).events.has e = false → (p.table.view fd).getContext e = {}
  /-- A call that fails changes nothing. -/
  failed : ∀ op a u, exec p.table op = .ok (a, u) → a.failed →
    u.view = p.table.view ∧ u.interest = p.table.interest ∧
      u.pendingEventCount = p.table.pendingEventCount ∧ u.fibers = p.table.fibers

/-- **The event table.** After any run of valid and fresh calls, each `epoll_ctl` free to
fail, no call has ended the process, the counter is the number of armed directions, the
kernel holds exactly the masks, and the slots in use are those of the armed directions. -/
theorem table_reachable (ops : List (Op σ φ κ)) (p : Process σ φ κ)
    (hm : Meets step (fun p op => op.Valid p.table ∧ op.Fresh p.table) Process.start ops)
    (h : run step Process.start ops = some p) : Accurate p := by
  obtain ⟨⟨hc, ho⟩, hfault⟩ := run_invariant (P := fun p => Sound p ∧ p.fault = none)
    (fun p op q hp hg hs => ⟨step_sound hp.1 hg.1 hs, step_no_fault hp.1 hg.1 hg.2 hs⟩)
    ⟨start_sound, rfl⟩ hm h
  refine ⟨hfault, hc.count, hc.count ▸ p.table.armed_nonneg, fun fd => ?_, addOp_legal hc,
    fun fd he => ⟨fun left => leave_legal hc he (leaveOp_ne_add left), leave_legal hc he (by simp)⟩,
    fun fd e he => ?_, fun fd e he => ?_, fun op a u he ha => exec_failed hc he ha⟩
  · rw [hc.kernel fd, registered]
    by_cases he : (p.table.view fd).events = Mask.none
    · rw [if_pos he, if_pos he]
      rfl
    · obtain ⟨q, hq, -⟩ := get_of_events he
      rw [if_neg he, if_neg he, hq]
      rfl
  · have hslot := hc.slots fd e
    rw [if_pos he] at hslot
    exact ⟨ho fd e he, hslot⟩
  · have hslot := hc.slots fd e
    rwa [he, if_neg (by simp)] at hslot

end

/-- Both directions of one descriptor and a callback beyond the vector; one call fails,
and a hang-up wakes both directions. -/
def sampleCalls : List (Op Nat Nat Nat) :=
  [.addEvent 3 .read ⟨some 0, 7⟩ none true, .addEvent 3 .write ⟨some 0, 8⟩ none true,
    .addEvent 40 .write ⟨some 1, 7⟩ (some 5) true, .cancelEvent 40 .write false,
    .dispatch 3 { epollhup := true } true, .delEvent 40 .write true,
    .addEvent 3 .read ⟨some 1, 9⟩ none true, .cancelAll 3 true]

theorem table_reachable_sample :
    ∃ p, run step Process.start sampleCalls = some p ∧ Accurate p :=
  ⟨_, rfl, table_reachable sampleCalls _ (by decide) rfl⟩

end ShioSylar.IOManager
