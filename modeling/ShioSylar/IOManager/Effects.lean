import ShioSylar.IOManager.Consistency

/-! What each operation does, once and for all.

From a consistent table every operation either changes nothing or writes one context:
`addEvent` arms a direction, `delEvent` takes one off, `cancelEvent`, `cancelAll` and the
dispatch of a report take theirs off and push the tasks. Each has one lemma that lists
its outcomes, the faults among them; what holds over whole runs is read off these. -/
namespace ShioSylar.IOManager
open Scheduler

variable {σ φ κ : Type}

/-- The slot of a fresh registration. -/
def slotOf (who : Caller σ φ) (cb : Option κ) : EventContext σ φ κ := EventContext.fill {} who cb

theorem slotOf_used (who : Caller σ φ) (cb : Option κ) : (slotOf who cb).Used := by
  cases cb <;> rfl

@[simp] theorem slotOf_scheduler (who : Caller σ φ) (cb : Option κ) :
    (slotOf who cb).scheduler = who.scheduler := by
  cases cb <;> rfl

/-! ### Growing the vector -/

theorem contextResize_get (s : State σ φ κ) (size fd : Nat) (hsize : s.fdContexts.length ≤ size) :
    (s.contextResize size).fdContexts[fd]? =
      if fd < s.fdContexts.length then s.fdContexts[fd]?
      else if fd < size then some (s.allocated + (fd - s.fdContexts.length)) else none := by
  simp only [State.contextResize, List.take_of_length_le hsize]
  by_cases hfd : fd < s.fdContexts.length
  · rw [List.getElem?_append_left hfd, if_pos hfd]
  · rw [List.getElem?_append_right (by omega), if_neg hfd, List.getElem?_map]
    by_cases hlt : fd < size
    · rw [if_pos hlt, List.getElem?_range (by omega)]
      rfl
    · rw [if_neg hlt, List.getElem?_eq_none (by simp; omega)]
      rfl

theorem contextResize_new (s : State σ φ κ) {size n : Nat} (hn : n < size - s.fdContexts.length) :
    (s.contextResize size).contexts (s.allocated + n) = { fd := s.fdContexts.length + n } := by
  have hn' : s.allocated + n - s.allocated = n := by omega
  simp only [State.contextResize]
  rw [if_pos (by omega), hn']

/-- A growing vector keeps its contexts, and extends. -/
theorem contextResize_old {s : State σ φ κ} (h : Indexed s) (size : Nat) {p : Nat}
    (hp : p ∈ s.fdContexts) : (s.contextResize size).contexts p = s.contexts p := by
  obtain ⟨fd, hfd⟩ := List.mem_iff_getElem?.mp hp
  have hlt := (h.place fd p hfd).1
  exact if_neg (by omega)

theorem contextResize_vector (s : State σ φ κ) {size : Nat} (hsize : s.fdContexts.length ≤ size) :
    (s.contextResize size).fdContexts =
      s.fdContexts ++ (List.range (size - s.fdContexts.length)).map (s.allocated + ·) := by
  simp only [State.contextResize, List.take_of_length_le hsize]

theorem contextResize_view {s : State σ φ κ} (h : Indexed s) {size : Nat}
    (hsize : s.fdContexts.length ≤ size) : (s.contextResize size).view = s.view := by
  funext fd
  unfold State.view
  rw [contextResize_get s size fd hsize]
  by_cases hfd : fd < s.fdContexts.length
  · rw [if_pos hfd, List.getElem?_eq_getElem hfd]
    exact contextResize_old h size (List.getElem_mem hfd)
  · rw [if_neg hfd, List.getElem?_eq_none (by omega)]
    by_cases hlt : fd < size
    · rw [if_pos hlt]
      dsimp only
      rw [contextResize_new s (by omega)]
      congr 1
      omega
    · rw [if_neg hlt]

theorem contextResize_indexed {s : State σ φ κ} (h : Indexed s) {size : Nat}
    (hsize : s.fdContexts.length ≤ size) : Indexed (s.contextResize size) := by
  refine ⟨?_, fun fd p hp => ?_⟩
  · rw [contextResize_vector s hsize, List.length_append]
    exact Nat.le_trans h.size (Nat.le_add_right _ _)
  · rw [contextResize_get s size fd hsize] at hp
    by_cases hfd : fd < s.fdContexts.length
    · rw [if_pos hfd] at hp
      obtain ⟨hlt, hplace⟩ := h.place fd p hp
      refine ⟨Nat.lt_of_lt_of_le hlt (Nat.le_add_right _ _), ?_⟩
      rw [contextResize_old h size (List.mem_of_getElem? hp), hplace]
    · rw [if_neg hfd] at hp
      obtain ⟨hlt, hp⟩ := Option.ite_none_right_eq_some.mp hp
      cases hp
      refine ⟨?_, ?_⟩
      · simp only [State.contextResize]
        omega
      · rw [contextResize_new s (by omega)]
        dsimp only
        omega

/-- New contexts have no bits. -/
theorem contextResize_armed {s : State σ φ κ} (h : Indexed s) {size : Nat}
    (hsize : s.fdContexts.length ≤ size) : (s.contextResize size).armed = s.armed := by
  have hold : s.fdContexts.map (fun p => (((s.contextResize size).contexts p).events.count : Int)) =
      s.fdContexts.map fun p => ((s.contexts p).events.count : Int) :=
    List.map_congr_left fun p hp => by rw [contextResize_old h size hp]
  have hzero : ((List.range (size - s.fdContexts.length)).map (s.allocated + ·)).map
      (fun p => (((s.contextResize size).contexts p).events.count : Int)) =
      (List.range (size - s.fdContexts.length)).map fun _ => 0 := by
    rw [List.map_map]
    refine List.map_congr_left fun n hn => ?_
    rw [Function.comp_apply, contextResize_new s (List.mem_range.mp hn)]
    rfl
  unfold State.armed
  rw [contextResize_vector s hsize, List.map_append, List.sum_append, hzero, hold]
  simp

theorem contextResize_consistent {s : State σ φ κ} (h : Consistent s) {size : Nat}
    (hsize : s.fdContexts.length ≤ size) :
    Consistent (s.contextResize size) ∧ Same s (s.contextResize size) := by
  have hview := contextResize_view h.toIndexed hsize
  refine ⟨⟨contextResize_indexed h.toIndexed hsize, fun fd => ?_, fun fd => ?_, ?_⟩,
    ⟨hview, rfl, rfl, rfl, ?_⟩⟩
  · rw [hview]
    exact h.slots fd
  · show s.interest fd = _
    rw [h.kernel fd, registered, registered, hview]
    by_cases hnone : (s.view fd).events = Mask.none
    · rw [if_pos hnone, if_pos hnone]
    · have hfd : fd < s.fdContexts.length := by
        by_contra hfd
        exact hnone (by simp [State.view, List.getElem?_eq_none (Nat.le_of_not_lt hfd)])
      rw [if_neg hnone, if_neg hnone, contextResize_get s size fd hsize, if_pos hfd]
  · exact h.count.trans (contextResize_armed h.toIndexed hsize).symm
  · rw [contextResize_vector s hsize]
    exact List.prefix_append _ _

/-- The first half of `addEvent` always comes back with the context of the descriptor. -/
theorem fetchContext_spec {s : State σ φ κ} (h : Consistent s) (fd : Nat) :
    ∃ p u, s.fetchContext fd = some (p, u) ∧ u.fdContexts[fd]? = some p ∧ Consistent u ∧ Same s u := by
  unfold State.fetchContext
  cases hfd : s.fdContexts[fd]? with
  | some p => exact ⟨p, s, rfl, hfd, h, Same.refl s⟩
  | none =>
    have hle := List.getElem?_eq_none_iff.mp hfd
    have hsize := h.size
    have hgrow : s.fdContexts.length ≤ fd * 3 / 2 := by omega
    obtain ⟨hc, hsame⟩ := contextResize_consistent h hgrow
    have hget := contextResize_get s (fd * 3 / 2) fd hgrow
    rw [if_neg (by omega), if_pos (by omega)] at hget
    exact ⟨_, _, by simp [State.grow, hget], hget, hc, hsame⟩

/-! ### The kernel follows -/

theorem epollCtl_legal {interest : Nat → Option (Mask × Nat)} {op : CtlOp} {fd : Nat}
    (h : Legal (interest fd) op = true) (mask : Mask) (ptr : Nat) (ok : Bool) :
    epollCtl interest op fd mask ptr ok = (ok, if ok then
      Function.update interest fd (if op = .del then none else some (mask, ptr)) else interest) := by
  cases ok <;> simp [epollCtl, h]

theorem get_of_events {s : State σ φ κ} {fd : Nat} (he : (s.view fd).events ≠ Mask.none) :
    ∃ p, s.fdContexts[fd]? = some p ∧ s.view fd = s.contexts p := by
  cases hp : s.fdContexts[fd]? with
  | none => exact absurd (by simp [State.view, hp]) he
  | some p => exact ⟨p, rfl, State.view_of_get hp⟩

section
variable {s : State σ φ κ} (h : Consistent s)
include h

/-- The operation `addEvent` chooses is the one the kernel accepts. -/
theorem addOp_legal (fd : Nat) : Legal (s.interest fd) (addOp (s.view fd).events) = true := by
  rw [h.kernel fd, registered, addOp]
  by_cases he : (s.view fd).events = Mask.none
  · rw [if_pos he, if_pos he]
    rfl
  · obtain ⟨p, hp, -⟩ := get_of_events he
    rw [if_neg he, if_neg he, hp]
    rfl

/-- The operations that take directions off are accepted where a direction is armed. -/
theorem leave_legal {fd : Nat} (he : (s.view fd).events ≠ Mask.none) {op : CtlOp} (hop : op ≠ .add) :
    Legal (s.interest fd) op = true := by
  obtain ⟨p, hp, -⟩ := get_of_events he
  rw [h.kernel fd, registered, if_neg he, hp]
  cases op
  · exact absurd rfl hop
  · rfl
  · rfl

omit h in
theorem leaveOp_ne_add (left : Mask) : leaveOp left ≠ .add := by
  unfold leaveOp
  split <;> simp

omit h in
theorem leaveOp_entry (left : Mask) (p : Nat) :
    (if leaveOp left = .del then none else some (left, p)) =
      if left = Mask.none then none else some (left, p) := by
  unfold leaveOp
  by_cases hl : left = Mask.none
  · rw [if_pos hl, if_pos rfl, if_pos hl]
  · rw [if_neg hl, if_neg (by simp), if_neg hl]

/-! ### Arming and taking off -/

omit h in
theorem addOp_ne_del (m : Mask) : addOp m ≠ .del := by
  unfold addOp
  split <;> simp

omit h in
theorem events_arm (ctx : FdContext σ φ κ) (e : Event) (c : EventContext σ φ κ) :
    (ctx.arm e c).events = ctx.events.add e := FdContext.events_setContext ..

omit h in
theorem events_disarm (ctx : FdContext σ φ κ) (e : Event) :
    (ctx.disarm e).events = ctx.events.remove e := FdContext.events_setContext ..

omit h in
theorem fd_arm (ctx : FdContext σ φ κ) (e : Event) (c : EventContext σ φ κ) : (ctx.arm e c).fd = ctx.fd :=
  FdContext.fd_setContext ..

omit h in
theorem fd_disarm (ctx : FdContext σ φ κ) (e : Event) : (ctx.disarm e).fd = ctx.fd :=
  FdContext.fd_setContext ..

/-- The second half of `addEvent`, on the context of the descriptor. -/
theorem addEventLocked_spec {fd p : Nat} (hp : s.fdContexts[fd]? = some p) (e : Event)
    (who : Caller σ φ) (cb : Option κ) (ok : Bool) :
    s.addEventLocked p fd e who cb ok =
      if (s.view fd).events.has e then .error .assertion
      else if ok = false then .ok (false, s)
      else .ok (true, s.write fd p ((s.view fd).arm e (slotOf who cb)) s.fibers) := by
  have hlegal := addOp_legal h fd
  have hempty := h.slots fd e
  rw [State.view_of_get hp] at hlegal hempty ⊢
  unfold State.addEventLocked
  dsimp only
  rw [epollCtl_legal hlegal]
  by_cases he : (s.contexts p).events.has e = true
  · rw [if_pos he, if_pos he]
  · rw [if_neg he] at hempty
    rw [if_neg he, if_neg he, hempty]
    cases ok with
    | false => rfl
    | true =>
      have hcount := Mask.count_add (Bool.not_eq_true _ ▸ he)
      have hdiff : (1 : Int) = (((s.contexts p).events.add e).count : Int) -
          ((s.contexts p).events.count : Int) := by omega
      simp only [Bool.true_eq_false, if_false, if_true, addOp_ne_del, State.write, events_arm,
        Mask.add_ne_none, ← hdiff]
      rfl

/-- The second half of `delEvent`. -/
theorem delEventLocked_spec {fd p : Nat} (hp : s.fdContexts[fd]? = some p) (e : Event) (ok : Bool) :
    s.delEventLocked p fd e ok =
      if (s.view fd).events.has e = false ∨ ok = false then (false, s)
      else (true, s.write fd p ((s.view fd).disarm e) s.fibers) := by
  have hview := State.view_of_get hp
  unfold State.delEventLocked
  dsimp only
  by_cases he : (s.contexts p).events.has e = true
  · have hne := Mask.ne_none_of_has he
    have hcount := Mask.count_remove he
    have hdiff : (-1 : Int) = (((s.contexts p).events.remove e).count : Int) -
        ((s.contexts p).events.count : Int) := by omega
    rw [epollCtl_legal (leave_legal h (by rwa [hview]) (leaveOp_ne_add _)), hview, he]
    cases ok with
    | false => simp
    | true =>
      simp only [Bool.true_eq_false, if_false, if_true, or_self, State.write, events_disarm,
        leaveOp_entry, ← hdiff]
      rfl
  · rw [Bool.not_eq_true] at he
    rw [if_pos he, if_pos (.inl (by rwa [hview]))]

end

/-! ### Triggers -/

/-- The queues after the task of a slot was scheduled. -/
def pushSlot [DecidableEq σ] (fibers : σ → List (FiberAndThread φ κ)) (c : EventContext σ φ κ) :
    σ → List (FiberAndThread φ κ) :=
  match c.scheduler with
  | none => fibers
  | some sched => Function.update fibers sched (fibers sched ++ [c.task])

/-- Why a trigger ends the process, if it does. -/
def FdContext.fault (ctx : FdContext σ φ κ) (e : Event) : Option Fault :=
  if ctx.events.has e = false then some .assertion
  else if (ctx.getContext e).scheduler.isNone then some .nullScheduler
  else none

/-- The directions of a mask taken off. -/
def FdContext.disarmMask (ctx : FdContext σ φ κ) (m : Mask) : FdContext σ φ κ :=
  let ctx := if m.has .read then ctx.disarm .read else ctx
  if m.has .write then ctx.disarm .write else ctx

/-- The tasks of a mask scheduled, READ first. -/
def pushMask [DecidableEq σ] (fibers : σ → List (FiberAndThread φ κ)) (ctx : FdContext σ φ κ) (m : Mask) :
    σ → List (FiberAndThread φ κ) :=
  let fibers := if m.has .read then pushSlot fibers (ctx.getContext .read) else fibers
  if m.has .write then pushSlot fibers (ctx.getContext .write) else fibers

/-- The first fault among the directions of a mask. -/
def FdContext.faultMask (ctx : FdContext σ φ κ) (m : Mask) : Option Fault :=
  (if m.has .read then ctx.fault .read else none) <|> (if m.has .write then ctx.fault .write else none)

section
variable [DecidableEq σ] {s : State σ φ κ} {p : Nat}

theorem triggerOne_spec (hslots : (s.contexts p).Slots) (e : Event) :
    s.triggerOne p e = match (s.contexts p).fault e with
      | some f => .error f
      | none => .ok { s with
          contexts := Function.update s.contexts p ((s.contexts p).disarm e)
          pendingEventCount := s.pendingEventCount - 1
          fibers := pushSlot s.fibers ((s.contexts p).getContext e) } := by
  have hslot := hslots e
  unfold State.triggerOne State.triggerEvent FdContext.fault
  dsimp only
  by_cases he : (s.contexts p).events.has e = true
  · rw [if_pos he] at hslot
    have hpush := hslot.nonempty
    rw [he, if_neg (by simp), if_neg (by simp)]
    cases hsched : ((s.contexts p).getContext e).scheduler with
    | none => rfl
    | some sched =>
      unfold EventContext.Used at hslot
      cases hcb : ((s.contexts p).getContext e).cb <;>
        cases hfiber : ((s.contexts p).getContext e).fiber <;>
        simp [hcb, hfiber, EventContext.task] at hslot hpush ⊢ <;>
        simp [Except.map, State.schedule, State.setContext, scheduleNoLock, pushSlot, hsched, hcb,
          EventContext.task, FiberAndThread.ofCbPtr, FiberAndThread.ofFiberPtr, hfiber,
          FiberAndThread.nonempty, FdContext.disarm]
  · rw [Bool.not_eq_true] at he
    rw [he, if_pos rfl, if_pos rfl]
    rfl

omit [DecidableEq σ] in
/-- Taking one direction off does not touch the other. -/
theorem fault_disarm (ctx : FdContext σ φ κ) {e e' : Event} (hne : e' ≠ e) :
    (ctx.disarm e).fault e' = ctx.fault e' ∧ (ctx.disarm e).getContext e' = ctx.getContext e' := by
  simp [FdContext.fault, FdContext.disarm, hne]

theorem triggerIf_spec (hslots : (s.contexts p).Slots) (m : Mask) (e : Event) :
    s.triggerIf p m e = match (if m.has e then (s.contexts p).fault e else none) with
      | some f => .error f
      | none => .ok { s with
          contexts := Function.update s.contexts p
            (if m.has e then (s.contexts p).disarm e else s.contexts p)
          pendingEventCount := s.pendingEventCount - (m.has e).toNat
          fibers := if m.has e then pushSlot s.fibers ((s.contexts p).getContext e) else s.fibers } := by
  unfold State.triggerIf
  cases m.has e with
  | true => exact triggerOne_spec hslots e
  | false => simp

/-- Both triggers, as `cancelAll` and the dispatch make them. -/
theorem triggerMask_spec (hslots : (s.contexts p).Slots) (m : Mask) :
    ((s.triggerIf p m .read).bind fun s => s.triggerIf p m .write) =
      match (s.contexts p).faultMask m with
      | some f => .error f
      | none => .ok { s with
          contexts := Function.update s.contexts p ((s.contexts p).disarmMask m)
          pendingEventCount := s.pendingEventCount - m.count
          fibers := pushMask s.fibers (s.contexts p) m } := by
  rw [triggerIf_spec hslots, FdContext.faultMask]
  cases hread : (if m.has .read then (s.contexts p).fault .read else none) with
  | some f => rfl
  | none =>
    have hslots' : (if m.has .read then (s.contexts p).disarm .read else s.contexts p).Slots := by
      split
      · exact FdContext.slots_disarm hslots .read
      · exact hslots
    have hother : (if m.has .read then (s.contexts p).disarm .read else s.contexts p).fault .write =
        (s.contexts p).fault .write ∧
        (if m.has .read then (s.contexts p).disarm .read else s.contexts p).getContext .write =
          (s.contexts p).getContext .write := by
      split
      · exact fault_disarm _ (by simp)
      · exact ⟨rfl, rfl⟩
    show State.triggerIf _ p m .write = _
    rw [triggerIf_spec (by simpa using hslots')]
    simp only [Function.update_self, Function.update_idem, hother.1, hother.2]
    cases hwrite : (if m.has .write then (s.contexts p).fault .write else none) with
    | some f => rfl
    | none =>
      have hcount : s.pendingEventCount - ((m.has .read).toNat : Int) - ((m.has .write).toNat : Int) =
          s.pendingEventCount - (m.count : Int) := by
        rw [Int.sub_sub, Mask.count, Nat.cast_add]
        rfl
      simp only [FdContext.disarmMask, pushMask, hcount]
      rfl

end

/-- The triggers of `cancelAll` read the mask anew, to the same effect, and leave none. -/
theorem cancelAll_triggers [DecidableEq σ] {s : State σ φ κ} {p : Nat} (hslots : (s.contexts p).Slots) :
    ((s.triggerIf p (s.contexts p).events .read).bind fun s =>
      (s.triggerIf p (s.contexts p).events .write).bind fun s =>
      if (s.contexts p).events = Mask.none then .ok (true, s) else .error .assertion) =
    ((s.triggerIf p (s.contexts p).events .read).bind fun t =>
      t.triggerIf p (s.contexts p).events .write).map fun s => (true, s) := by
  rw [triggerIf_spec hslots]
  cases hread : (if (s.contexts p).events.has .read then (s.contexts p).fault .read else none) with
  | some f => rfl
  | none =>
    dsimp only [Except.bind]
    generalize hctx : (if (s.contexts p).events.has .read then (s.contexts p).disarm .read
      else s.contexts p) = ctx
    have hctx' : ctx.Slots ∧ ∀ e, ctx.events.has e = (decide (e = .write) && (s.contexts p).events.has e) := by
      subst hctx
      cases hr : (s.contexts p).events.has .read with
      | true =>
        refine ⟨FdContext.slots_disarm hslots .read, fun e => ?_⟩
        cases e <;> simp [events_disarm]
      | false =>
        refine ⟨hslots, fun e => ?_⟩
        cases e <;> simp [hr]
    have hsame : ∀ t : State σ φ κ, t.triggerIf p ctx.events .write =
        t.triggerIf p (s.contexts p).events .write := fun t => by
      simp [State.triggerIf, hctx'.2 .write]
    simp only [Function.update_self]
    rw [hsame, triggerIf_spec (by simpa using hctx'.1)]
    simp only [Function.update_self]
    cases (if (s.contexts p).events.has .write then ctx.fault .write else none) with
    | some f => rfl
    | none =>
      have hnone : (if (s.contexts p).events.has .write then ctx.disarm .write else ctx).events = Mask.none := by
        refine Mask.ext_has fun e => ?_
        cases hw : (s.contexts p).events.has .write <;> cases e <;> simp [events_disarm, hctx'.2, hw]
      simp [Except.map, hnone]

/-! ### The operations

`put` writes the context of a descriptor wherever it is. -/

def Mask.only (e : Event) : Mask := Mask.none.add e

theorem events_disarmMask (ctx : FdContext σ φ κ) (m : Mask) :
    (ctx.disarmMask m).events = ctx.events.diff m := by
  rcases m with ⟨_ | _, _ | _⟩ <;> refine Mask.ext_has fun e => ?_ <;> cases e <;>
    simp [FdContext.disarmMask, FdContext.disarm, Mask.has, Mask.diff, Mask.remove]

theorem slots_disarmMask {ctx : FdContext σ φ κ} (h : ctx.Slots) (m : Mask) : (ctx.disarmMask m).Slots := by
  unfold FdContext.disarmMask
  cases m.has .read <;> cases m.has .write
  · exact h
  · exact FdContext.slots_disarm h _
  · exact FdContext.slots_disarm h _
  · exact FdContext.slots_disarm (FdContext.slots_disarm h _) _

theorem fd_disarmMask (ctx : FdContext σ φ κ) (m : Mask) : (ctx.disarmMask m).fd = ctx.fd := by
  rcases m with ⟨_ | _, _ | _⟩ <;> rfl

theorem count_diff {k m : Mask} (h : ∀ e, m.has e = true → k.has e = true) :
    (k.diff m).count + m.count = k.count := by
  have hr := h .read
  have hw := h .write
  rcases m with ⟨_ | _, _ | _⟩ <;> rcases k with ⟨_ | _, _ | _⟩ <;> simp_all [Mask.has] <;> rfl

theorem FdContext.fault_none {ctx : FdContext σ φ κ} {e : Event} (h : ctx.fault e = none) :
    ctx.events.has e = true ∧ (ctx.getContext e).scheduler.isSome = true := by
  unfold FdContext.fault at h
  cases he : ctx.events.has e <;> cases hs : (ctx.getContext e).scheduler <;> simp_all

theorem FdContext.faultMask_none {ctx : FdContext σ φ κ} {m : Mask} :
    ctx.faultMask m = none ↔
      ∀ e, m.has e = true → ctx.events.has e = true ∧ (ctx.getContext e).scheduler.isSome = true := by
  unfold FdContext.faultMask
  rw [Option.orElse_eq_none]
  constructor
  · rintro ⟨hr, hw⟩ (_ | _) hm
    · rw [if_pos hm] at hr
      exact FdContext.fault_none hr
    · rw [if_pos hm] at hw
      exact FdContext.fault_none hw
  · intro h
    constructor <;> split <;> try rfl
    all_goals
      rename_i hm
      obtain ⟨he, hs⟩ := h _ hm
      obtain ⟨sched, hsched⟩ := Option.isSome_iff_exists.mp hs
      simp [FdContext.fault, he, hsched]

theorem diff_only (m : Mask) (e : Event) : m.diff (Mask.only e) = m.remove e := by
  refine Mask.ext_has fun e' => ?_
  rw [Mask.has_diff, Mask.has_remove, Mask.only, Mask.has_add, Mask.has_none, Bool.or_false, Bool.and_comm]

theorem diff_self (m : Mask) : m.diff m = Mask.none :=
  Mask.ext_has fun e => by rw [Mask.has_diff, Bool.and_not_self, Mask.has_none]

theorem trigger_only [DecidableEq σ] (s : State σ φ κ) (p : Nat) (e : Event) :
    ((s.triggerIf p (Mask.only e) .read).bind fun s => s.triggerIf p (Mask.only e) .write) =
      s.triggerOne p e := by
  cases e with
  | read => cases h : s.triggerOne p .read <;> simp [State.triggerIf, Mask.only, h, Except.bind]
  | write => simp [State.triggerIf, Mask.only, Except.bind]

/-- What the loops do after their triggers. -/
theorem bind_ok {ε S T : Type} (x : Except ε S) (f : S → Except ε S) (g : S → T) :
    (x.bind fun s => (f s).bind fun s => .ok (g s)) = (x.bind f).map g := by
  cases x with
  | error e => rfl
  | ok s => cases h : f s <;> simp [Except.bind, Except.map, h]

/-- The context of `fd` is written, the kernel's entry and the counter follow. -/
def State.put (s : State σ φ κ) (fd : Nat) (ctx : FdContext σ φ κ)
    (fibers : σ → List (FiberAndThread φ κ)) : State σ φ κ :=
  s.write fd ((s.fdContexts[fd]?).getD 0) ctx fibers

/-- A descriptor with a direction armed is in the vector. -/
theorem lt_of_armed {s : State σ φ κ} {fd : Nat} {e : Event} (he : (s.view fd).events.has e = true) :
    fd < s.fdContexts.length := by
  obtain ⟨p, hp, -⟩ := get_of_events (Mask.ne_none_of_has he)
  exact (List.getElem?_eq_some_iff.mp hp).1

theorem put_eq {s : State σ φ κ} {fd p : Nat} (hp : s.fdContexts[fd]? = some p) (ctx : FdContext σ φ κ)
    (fibers : σ → List (FiberAndThread φ κ)) : s.put fd ctx fibers = s.write fd p ctx fibers := by
  simp [State.put, hp]

/-- The directions of a mask taken off, their tasks pushed. -/
def State.take [DecidableEq σ] (s : State σ φ κ) (fd : Nat) (m : Mask) : State σ φ κ :=
  s.put fd ((s.view fd).disarmMask m) (pushMask s.fibers (s.view fd) m)

section
variable {s : State σ φ κ} (h : Consistent s)
include h

theorem put_view {fd : Nat} (hfd : fd < s.fdContexts.length) (ctx : FdContext σ φ κ)
    (fibers : σ → List (FiberAndThread φ κ)) :
    (s.put fd ctx fibers).view = Function.update s.view fd ctx := by
  have hp := List.getElem?_eq_getElem hfd
  rw [put_eq hp]
  exact write_view h hp ctx fibers

theorem put_consistent {fd : Nat} (hfd : fd < s.fdContexts.length) {ctx : FdContext σ φ κ}
    (hctx : ctx.fd = (s.view fd).fd) (hslots : ctx.Slots) (fibers : σ → List (FiberAndThread φ κ)) :
    Consistent (s.put fd ctx fibers) := by
  have hp := List.getElem?_eq_getElem hfd
  rw [put_eq hp]
  rw [State.view_of_get hp, (h.place fd _ hp).2] at hctx
  exact h.write hp ctx fibers hctx hslots

theorem delEvent_spec (fd : Nat) (e : Event) (ok : Bool) :
    s.delEvent fd e ok =
      if (s.view fd).events.has e = false ∨ ok = false then (false, s)
      else (true, s.put fd ((s.view fd).disarm e) s.fibers) := by
  unfold State.delEvent
  cases hp : s.fdContexts[fd]? with
  | none => simp [State.view, hp]
  | some p =>
    dsimp only
    rw [delEventLocked_spec h hp, put_eq hp]

theorem addEvent_spec (fd : Nat) (e : Event) (who : Caller σ φ) (cb : Option κ) (ok : Bool) :
    ∃ u, Consistent u ∧ Same s u ∧ fd < u.fdContexts.length ∧ s.addEvent fd e who cb ok =
      if (s.view fd).events.has e then .error .assertion
      else if ok = false then .ok (false, u)
      else .ok (true, u.put fd ((u.view fd).arm e (slotOf who cb)) u.fibers) := by
  obtain ⟨p, u, hfetch, hp, hu, hsame⟩ := fetchContext_spec h fd
  refine ⟨u, hu, hsame, (List.getElem?_eq_some_iff.mp hp).1, ?_⟩
  unfold State.addEvent
  rw [hfetch]
  dsimp only
  rw [addEventLocked_spec hu hp, put_eq hp, hsame.view]

variable [DecidableEq σ]

omit h in
/-- Once the kernel accepted, the triggers of a mask write the context, or one of them
ends the process. -/
theorem trigger_take {fd p : Nat} (hp : s.fdContexts[fd]? = some p) (hslots : (s.view fd).Slots)
    (m : Mask) (interest : Nat → Option (Mask × Nat))
    (hi : interest = Function.update s.interest fd
      (if (s.view fd).events.diff m = Mask.none then none else some ((s.view fd).events.diff m, p))) :
    (({ s with interest := interest }.triggerIf p m .read).bind fun s => s.triggerIf p m .write) =
      match (s.view fd).faultMask m with
      | some f => .error f
      | none => .ok (s.take fd m) := by
  rw [State.view_of_get hp] at hslots hi ⊢
  have hboth := triggerMask_spec (s := { s with interest := interest }) (p := p) hslots m
  rw [hboth, State.take, put_eq hp, State.view_of_get hp, hi]
  dsimp only
  cases hm : (s.contexts p).faultMask m with
  | some f => rfl
  | none =>
    have hcount := count_diff fun e he => (FdContext.faultMask_none.mp hm e he).1
    have hdiff : s.pendingEventCount - (m.count : Int) = s.pendingEventCount +
        ((((s.contexts p).events.diff m).count : Int) - ((s.contexts p).events.count : Int)) := by
      omega
    simp only [State.write, events_disarmMask, hdiff]

theorem take_view {fd : Nat} (hfd : fd < s.fdContexts.length) (m : Mask) :
    (s.take fd m).view = Function.update s.view fd ((s.view fd).disarmMask m) :=
  put_view h hfd ..

theorem take_consistent {fd : Nat} (hfd : fd < s.fdContexts.length) (m : Mask) :
    Consistent (s.take fd m) :=
  put_consistent h hfd (fd_disarmMask ..) (slots_disarmMask (h.slots fd) m) _

theorem dispatch_spec {fd p : Nat} (hp : s.fdContexts[fd]? = some p) (r : Report) (ok : Bool) :
    s.dispatch p r ok =
      if (s.view fd).events.inter (r.realEvents (s.view fd).events) = Mask.none ∨ ok = false then
        .ok (Mask.none, s)
      else match (s.view fd).faultMask (r.realEvents (s.view fd).events) with
        | some f => .error f
        | none => .ok (r.realEvents (s.view fd).events, s.take fd (r.realEvents (s.view fd).events)) := by
  have hview := State.view_of_get hp
  have hfd := (h.place fd p hp).2
  unfold State.dispatch
  dsimp only
  rw [← hview, show (s.view fd).fd = fd from hview ▸ hfd]
  generalize hreal : r.realEvents (s.view fd).events = real
  by_cases hr : (s.view fd).events.inter real = Mask.none
  · rw [if_pos hr, if_pos (.inl hr)]
  · have hne : (s.view fd).events ≠ Mask.none := by
      intro hnone
      exact hr (by rw [hnone]; rfl)
    rw [epollCtl_legal (leave_legal h hne (leaveOp_ne_add _)), if_neg hr, leaveOp_entry]
    cases ok with
    | false => simp
    | true =>
      have htake := trigger_take hp (h.slots fd) real _ rfl
      simp only [hr, or_self, Bool.true_eq_false, if_false, if_true]
      rw [bind_ok, htake]
      cases (s.view fd).faultMask real <;> rfl

theorem cancelEvent_spec (fd : Nat) (e : Event) (ok : Bool) :
    s.cancelEvent fd e ok =
      if (s.view fd).events.has e = false ∨ ok = false then .ok (false, s)
      else match (s.view fd).faultMask (Mask.only e) with
        | some f => .error f
        | none => .ok (true, s.take fd (Mask.only e)) := by
  unfold State.cancelEvent
  cases hp : s.fdContexts[fd]? with
  | none => simp [State.view, hp]
  | some p =>
    have hview := State.view_of_get hp
    unfold State.cancelEventLocked
    dsimp only
    rw [← hview]
    by_cases he : (s.view fd).events.has e = true
    · rw [epollCtl_legal (leave_legal h (Mask.ne_none_of_has he) (leaveOp_ne_add _)), leaveOp_entry, he]
      cases ok with
      | false => simp
      | true =>
        have htake := trigger_take hp (h.slots fd) (Mask.only e) _ rfl
        simp only [or_self, Bool.true_eq_false, if_false, if_true]
        rw [← trigger_only, ← diff_only, htake]
        cases (s.view fd).faultMask (Mask.only e) <;> rfl
    · rw [Bool.not_eq_true] at he
      rw [if_pos he, if_pos (.inl he)]

theorem cancelAll_spec (fd : Nat) (ok : Bool) :
    s.cancelAll fd ok =
      if (s.view fd).events = Mask.none ∨ ok = false then .ok (false, s)
      else match (s.view fd).faultMask (s.view fd).events with
        | some f => .error f
        | none => .ok (true, s.take fd (s.view fd).events) := by
  unfold State.cancelAll
  cases hp : s.fdContexts[fd]? with
  | none => simp [State.view, hp]
  | some p =>
    have hview := State.view_of_get hp
    unfold State.cancelAllLocked
    dsimp only
    rw [← hview]
    by_cases he : (s.view fd).events = Mask.none
    · rw [if_pos he, if_pos (.inl he)]
    · rw [epollCtl_legal (leave_legal h he (by simp)), if_neg he]
      cases ok with
      | false => simp
      | true =>
        have htake := trigger_take hp (h.slots fd) (s.view fd).events _ rfl
        simp only [diff_self, if_true] at htake
        simp only [he, or_self, Bool.true_eq_false, if_false, if_true]
        rw [hview] at htake ⊢
        refine (cancelAll_triggers (hview ▸ h.slots fd)).trans ?_
        rw [htake]
        cases (s.contexts p).faultMask (s.contexts p).events <;> rfl

end

end ShioSylar.IOManager
