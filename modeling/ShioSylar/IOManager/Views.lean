import ShioSylar.IOManager.Calls

/-! What a call does to the contexts, whatever the kernel holds.

`close_f` takes a descriptor out of the epoll set behind the table's back. From then on the
kernel's set need not be that of `Consistent`, and `epoll_ctl` may refuse what the table asks
for. The contexts and the queues do not depend on that: a call leaves them alone, or it writes
the context of one descriptor as it would anyway (`exec_stirs`). -/
namespace ShioSylar.IOManager
open Scheduler

variable {σ φ κ : Type}

/-- The contexts are in order. -/
structure Shaped (s : State σ φ κ) : Prop extends Indexed s where
  slots : ∀ fd, (s.view fd).Slots

theorem Consistent.shaped {s : State σ φ κ} (h : Consistent s) : Shaped s := ⟨h.toIndexed, h.slots⟩

/-- Contexts of two tables that differ in the kernel's set, the counter and the queues. -/
structure SameContexts (s u : State σ φ κ) : Prop where
  contexts : u.contexts = s.contexts
  allocated : u.allocated = s.allocated
  fdContexts : u.fdContexts = s.fdContexts

theorem SameContexts.view {s u : State σ φ κ} (h : SameContexts s u) : u.view = s.view := by
  funext fd
  rw [State.view, h.fdContexts, h.contexts, State.view]

theorem SameContexts.shaped {s u : State σ φ κ} (h : SameContexts s u) (hs : Shaped s) : Shaped u := by
  refine ⟨⟨?_, fun fd p hp => ?_⟩, fun fd => ?_⟩
  · rw [h.fdContexts]
    exact hs.size
  · rw [h.fdContexts] at hp
    rw [h.allocated, h.contexts]
    exact hs.place fd p hp
  · rw [h.view]
    exact hs.slots fd

/-- The context of `fd`, at `p`, was written. -/
structure Wrote (s u : State σ φ κ) (p : Nat) (ctx : FdContext σ φ κ) : Prop where
  contexts : u.contexts = Function.update s.contexts p ctx
  allocated : u.allocated = s.allocated
  fdContexts : u.fdContexts = s.fdContexts

section
variable {s u : State σ φ κ} {fd p : Nat} {ctx : FdContext σ φ κ}

theorem Wrote.view (h : Wrote s u p ctx) (hs : Indexed s) (hp : s.fdContexts[fd]? = some p) :
    u.view = Function.update s.view fd ctx := by
  funext fd'
  rw [State.view, h.fdContexts, h.contexts]
  by_cases hfd : fd' = fd
  · subst hfd
    rw [Function.update_self, hp]
    exact Function.update_self ..
  · rw [Function.update_of_ne hfd, State.view]
    cases hq : s.fdContexts[fd']? with
    | none => rfl
    | some q => exact Function.update_of_ne (fun heq => hfd (hs.inj (heq ▸ hq) hp)) ..

theorem Wrote.shaped (h : Wrote s u p ctx) (hs : Shaped s) (hp : s.fdContexts[fd]? = some p)
    (hfd : ctx.fd = fd) (hslots : ctx.Slots) : Shaped u := by
  refine ⟨⟨?_, fun fd' q hq => ?_⟩, fun fd' => ?_⟩
  · rw [h.fdContexts]
    exact hs.size
  · rw [h.fdContexts] at hq
    obtain ⟨hlt, hplace⟩ := hs.place fd' q hq
    rw [h.allocated, h.contexts]
    refine ⟨hlt, ?_⟩
    by_cases hqp : q = p
    · subst hqp
      rw [Function.update_self, hfd]
      exact hs.inj hp hq
    · rwa [Function.update_of_ne hqp]
  · rw [h.view hs.toIndexed hp]
    by_cases hfd' : fd' = fd
    · rw [hfd', Function.update_self]
      exact hslots
    · rw [Function.update_of_ne hfd']
      exact hs.slots fd'

end

/-- The first half of `addEvent`. -/
theorem fetchContext_shaped {s : State σ φ κ} (h : Shaped s) (fd : Nat) :
    ∃ p u, s.fetchContext fd = some (p, u) ∧ u.fdContexts[fd]? = some p ∧ Shaped u ∧ u.view = s.view ∧
      u.fibers = s.fibers := by
  unfold State.fetchContext
  cases hfd : s.fdContexts[fd]? with
  | some p => exact ⟨p, s, rfl, hfd, h, rfl, rfl⟩
  | none =>
    have hle := List.getElem?_eq_none_iff.mp hfd
    have hsize := h.size
    have hgrow : s.fdContexts.length ≤ fd * 3 / 2 := by omega
    have hview := contextResize_view h.toIndexed hgrow
    have hget := contextResize_get s (fd * 3 / 2) fd hgrow
    rw [if_neg (by omega), if_pos (by omega)] at hget
    refine ⟨_, _, by simp [State.grow, hget], hget, ⟨contextResize_indexed h.toIndexed hgrow, ?_⟩, hview, rfl⟩
    rw [hview]
    exact h.slots

/-! ### What a call does -/

/-- The mask that a call triggers, where it triggers. -/
def Op.mask (s : State σ φ κ) : Op σ φ κ → Option (Nat × Mask)
  | .cancelEvent fd e _ => some (fd, Mask.only e)
  | .cancelAll fd _ => some (fd, (s.view fd).events)
  | .dispatch fd r _ => some (fd, r.realEvents (s.view fd).events)
  | .addEvent .. | .delEvent .. => none

/-- The inverse of a call that went through. -/
theorem map_ok {ε S T : Type} {x : Except ε S} {g : S → T} {t : T} (h : x.map g = .ok t) :
    ∃ s, x = .ok s ∧ g s = t := by
  cases x with
  | error e => cases h
  | ok s => exact ⟨s, rfl, Except.ok.inj h⟩

inductive Stirs [DecidableEq σ] (s u : State σ φ κ) : Op σ φ κ → Answer → Prop
  | nothing {op a} (ha : a.failed) (hview : u.view = s.view) (hfibers : u.fibers = s.fibers) : Stirs s u op a
  | arms {fd e who cb ok} (he : (s.view fd).events.has e = false)
      (hview : u.view = Function.update s.view fd ((s.view fd).arm e (slotOf who cb)))
      (hfibers : u.fibers = s.fibers) : Stirs s u (.addEvent fd e who cb ok) (.returned true)
  | drops {fd e ok} (he : (s.view fd).events.has e = true)
      (hview : u.view = Function.update s.view fd ((s.view fd).disarm e))
      (hfibers : u.fibers = s.fibers) : Stirs s u (.delEvent fd e ok) (.returned true)
  | takes {op fd m a} (hop : op.mask s = some (fd, m)) (hm : (s.view fd).faultMask m = none)
      (hview : u.view = Function.update s.view fd ((s.view fd).disarmMask m))
      (hfibers : u.fibers = pushMask s.fibers (s.view fd) m) : Stirs s u op a

section
variable [DecidableEq σ] {s u : State σ φ κ} (h : Shaped s)
include h

/-- The triggers of a mask. -/
theorem trigger_stirs {op : Op σ φ κ} {a : Answer} {fd p : Nat} {m : Mask} (hp : s.fdContexts[fd]? = some p)
    (hop : op.mask s = some (fd, m)) (interest : Nat → Option (Mask × Nat))
    (hu : (({ s with interest := interest }.triggerIf p m .read).bind fun s => s.triggerIf p m .write) =
      .ok u) : Shaped u ∧ Stirs s u op a := by
  have hview := State.view_of_get hp
  have hslots := h.slots fd
  rw [hview] at hslots
  rw [triggerMask_spec (s := { s with interest := interest }) (p := p) hslots] at hu
  dsimp only at hu
  cases hm : (s.contexts p).faultMask m with
  | some f =>
    rw [hm] at hu
    cases hu
  | none =>
    rw [hm] at hu
    cases hu
    have hwrote : Wrote s { s with
        contexts := Function.update s.contexts p ((s.contexts p).disarmMask m)
        pendingEventCount := s.pendingEventCount - m.count
        interest := interest
        fibers := pushMask s.fibers (s.contexts p) m } p ((s.contexts p).disarmMask m) := ⟨rfl, rfl, rfl⟩
    refine ⟨hwrote.shaped h hp ?_ (slots_disarmMask hslots m), .takes hop ?_ ?_ ?_⟩
    · rw [fd_disarmMask]
      exact (h.place fd p hp).2
    · rw [hview]
      exact hm
    · rw [hview]
      exact hwrote.view h.toIndexed hp
    · rw [hview]

theorem addEvent_stirs {fd : Nat} {e : Event} {who : Caller σ φ} {cb : Option κ} {ok b : Bool}
    (hu : s.addEvent fd e who cb ok = .ok (b, u)) :
    Shaped u ∧ Stirs s u (.addEvent fd e who cb ok) (.returned b) := by
  obtain ⟨p, v, hfetch, hp, hv, hview, hfibers⟩ := fetchContext_shaped h fd
  have hself := State.view_of_get hp
  have hslots := hv.slots fd
  rw [hself] at hslots
  simp only [State.addEvent, hfetch, State.addEventLocked] at hu
  by_cases he : (v.contexts p).events.has e = true
  · rw [if_pos he] at hu
    cases hu
  rw [if_neg he] at hu
  rw [Bool.not_eq_true] at he
  split at hu
  · cases hu
    exact ⟨hv, .nothing rfl hview hfibers⟩
  have hempty : (v.contexts p).getContext e = {} := by simpa [he] using hslots e
  simp only [hempty, Option.isSome_none, Bool.or_self, Bool.false_eq_true, if_false, Except.ok.injEq,
    Prod.mk.injEq] at hu
  obtain ⟨rfl, rfl⟩ := hu
  have hwrote : Wrote v { v with
      contexts := Function.update v.contexts p ((v.contexts p).arm e (slotOf who cb))
      pendingEventCount := v.pendingEventCount + 1
      interest := (epollCtl v.interest (addOp (v.contexts p).events) fd ((v.contexts p).events.add e) p ok).2 }
      p ((v.contexts p).arm e (slotOf who cb)) := ⟨rfl, rfl, rfl⟩
  refine ⟨hwrote.shaped hv hp ?_ (FdContext.slots_arm hslots e (slotOf_used who cb)), .arms ?_ ?_ hfibers⟩
  · rw [fd_arm]
    exact (hv.place fd p hp).2
  · rwa [← hview, hself]
  · rw [← hview, hself]
    exact hwrote.view hv.toIndexed hp

theorem delEvent_stirs {fd : Nat} {e : Event} {ok b : Bool} (hu : s.delEvent fd e ok = (b, u)) :
    Shaped u ∧ Stirs s u (.delEvent fd e ok) (.returned b) := by
  unfold State.delEvent at hu
  cases hp : s.fdContexts[fd]? with
  | none =>
    rw [hp] at hu
    cases hu
    exact ⟨h, .nothing rfl rfl rfl⟩
  | some p =>
    have hself := State.view_of_get hp
    have hslots := h.slots fd
    rw [hself] at hslots
    simp only [hp, State.delEventLocked] at hu
    split at hu
    · cases hu
      exact ⟨h, .nothing rfl rfl rfl⟩
    rename_i he
    rw [Bool.not_eq_false] at he
    split at hu
    · cases hu
      exact ⟨h, .nothing rfl rfl rfl⟩
    cases hu
    have hwrote : Wrote s { s with
        contexts := Function.update s.contexts p ((s.contexts p).disarm e)
        pendingEventCount := s.pendingEventCount - 1
        interest := (epollCtl s.interest (leaveOp ((s.contexts p).events.remove e)) fd
          ((s.contexts p).events.remove e) p ok).2 } p ((s.contexts p).disarm e) := ⟨rfl, rfl, rfl⟩
    refine ⟨hwrote.shaped h hp ?_ (FdContext.slots_disarm hslots e), .drops ?_ ?_ rfl⟩
    · rw [fd_disarm]
      exact (h.place fd p hp).2
    · rwa [hself]
    · rw [hself]
      exact hwrote.view h.toIndexed hp

theorem cancelEvent_stirs {fd : Nat} {e : Event} {ok b : Bool} (hu : s.cancelEvent fd e ok = .ok (b, u)) :
    Shaped u ∧ Stirs s u (.cancelEvent fd e ok) (.returned b) := by
  unfold State.cancelEvent at hu
  cases hp : s.fdContexts[fd]? with
  | none =>
    rw [hp] at hu
    cases hu
    exact ⟨h, .nothing rfl rfl rfl⟩
  | some p =>
    simp only [hp, State.cancelEventLocked] at hu
    split at hu
    · cases hu
      exact ⟨h, .nothing rfl rfl rfl⟩
    split at hu
    · cases hu
      exact ⟨h, .nothing rfl rfl rfl⟩
    rw [← trigger_only] at hu
    obtain ⟨v, hv, heq⟩ := map_ok hu
    cases heq
    exact trigger_stirs h hp rfl _ hv

theorem cancelAll_stirs {fd : Nat} {ok b : Bool} (hu : s.cancelAll fd ok = .ok (b, u)) :
    Shaped u ∧ Stirs s u (.cancelAll fd ok) (.returned b) := by
  unfold State.cancelAll at hu
  cases hp : s.fdContexts[fd]? with
  | none =>
    rw [hp] at hu
    cases hu
    exact ⟨h, .nothing rfl rfl rfl⟩
  | some p =>
    have hself := State.view_of_get hp
    have hslots := h.slots fd
    rw [hself] at hslots
    simp only [hp, State.cancelAllLocked] at hu
    split at hu
    · cases hu
      exact ⟨h, .nothing rfl rfl rfl⟩
    split at hu
    · cases hu
      exact ⟨h, .nothing rfl rfl rfl⟩
    have htriggers := cancelAll_triggers (s := { s with
      interest := (epollCtl s.interest .del fd Mask.none p ok).2 }) (p := p) hslots
    rw [htriggers] at hu
    obtain ⟨v, hv, heq⟩ := map_ok hu
    cases heq
    refine trigger_stirs h hp ?_ _ hv
    rw [Op.mask, hself]

theorem dispatch_stirs {fd p : Nat} (hp : s.fdContexts[fd]? = some p) {r : Report} {ok : Bool} {m : Mask}
    (hu : s.dispatch p r ok = .ok (m, u)) : Shaped u ∧ Stirs s u (.dispatch fd r ok) (.triggered m) := by
  unfold State.dispatch at hu
  dsimp only at hu
  split at hu
  · cases hu
    exact ⟨h, .nothing rfl rfl rfl⟩
  split at hu
  · cases hu
    exact ⟨h, .nothing rfl rfl rfl⟩
  rw [bind_ok] at hu
  obtain ⟨v, hv, heq⟩ := map_ok hu
  cases heq
  refine trigger_stirs h hp ?_ _ hv
  rw [Op.mask, State.view_of_get hp]

/-- **What a call does** to the contexts and the queues. -/
theorem exec_stirs {op : Op σ φ κ} {a : Answer} (hexec : exec s op = .ok (a, u)) :
    Shaped u ∧ Stirs s u op a := by
  cases op with
  | addEvent fd e who cb ok =>
    obtain ⟨⟨b, v⟩, hv, heq⟩ := map_ok hexec
    cases heq
    exact addEvent_stirs h hv
  | delEvent fd e ok =>
    cases hexec
    exact delEvent_stirs h rfl
  | cancelEvent fd e ok =>
    obtain ⟨⟨b, v⟩, hv, heq⟩ := map_ok hexec
    cases heq
    exact cancelEvent_stirs h hv
  | cancelAll fd ok =>
    obtain ⟨⟨b, v⟩, hv, heq⟩ := map_ok hexec
    cases heq
    exact cancelAll_stirs h hv
  | dispatch fd r ok =>
    simp only [exec] at hexec
    cases hp : s.fdContexts[fd]? with
    | none =>
      rw [hp] at hexec
      cases hexec
      exact ⟨h, .nothing rfl rfl rfl⟩
    | some p =>
      rw [hp] at hexec
      obtain ⟨⟨m, v⟩, hv, heq⟩ := map_ok hexec
      cases heq
      exact dispatch_stirs h hp hv

end

/-! ### One scheduler -/

section
variable {fibers : Unit → List (FiberAndThread φ κ)} {ctx : FdContext Unit φ κ} {m : Mask}
  {ft : FiberAndThread φ κ}

/-- What the trigger of a direction schedules. -/
def FdContext.pushed (ctx : FdContext Unit φ κ) (m : Mask) (e : Event) : List (FiberAndThread φ κ) :=
  if m.has e = true ∧ (ctx.getContext e).scheduler.isSome = true then [(ctx.getContext e).task] else []

theorem pushMask_eq (fibers : Unit → List (FiberAndThread φ κ)) (ctx : FdContext Unit φ κ) (m : Mask) :
    pushMask fibers ctx m () = fibers () ++ (ctx.pushed m .read ++ ctx.pushed m .write) := by
  unfold pushMask FdContext.pushed pushSlot
  cases m.has .read <;> cases m.has .write <;> cases (ctx.getContext .read).scheduler <;>
    cases (ctx.getContext .write).scheduler <;> simp

/-- The queue after a trigger: what was there, and the tasks of the mask. -/
theorem mem_pushMask : ft ∈ pushMask fibers ctx m () ↔ ft ∈ fibers () ∨
    ∃ e, m.has e = true ∧ (ctx.getContext e).scheduler.isSome = true ∧ ft = (ctx.getContext e).task := by
  have hpushed : ∀ e, ft ∈ ctx.pushed m e ↔ (m.has e = true ∧ (ctx.getContext e).scheduler.isSome = true) ∧
      ft = (ctx.getContext e).task := fun e => by
    unfold FdContext.pushed
    split
    · rename_i he
      simp [he]
    · rename_i he
      simp [he]
  rw [pushMask_eq, List.mem_append, List.mem_append, hpushed, hpushed]
  refine or_congr_right ⟨?_, ?_⟩
  · rintro (h | h)
    · exact ⟨.read, h.1.1, h.1.2, h.2⟩
    · exact ⟨.write, h.1.1, h.1.2, h.2⟩
  · rintro ⟨e, hm, hs, ht⟩
    cases e with
    | read => exact .inl ⟨⟨hm, hs⟩, ht⟩
    | write => exact .inr ⟨⟨hm, hs⟩, ht⟩

theorem getContext_disarmMask (ctx : FdContext Unit φ κ) (m : Mask) (e : Event) :
    (ctx.disarmMask m).getContext e = if m.has e then {} else ctx.getContext e := by
  rcases m with ⟨_ | _, _ | _⟩ <;> cases e <;> rfl

end

end ShioSylar.IOManager
