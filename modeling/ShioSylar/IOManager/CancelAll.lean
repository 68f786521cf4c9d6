import ShioSylar.IOManager.Calls

/-! Cancelling a descriptor at once, and direction by direction.

`cancelAll` takes the descriptor out of the kernel's set with one DEL and then triggers
READ and WRITE. `cancelEvent` of READ leaves the other direction in the set, with MOD, and
that of WRITE takes the rest out. Taking off two masks that have nothing in common is taking
off both (`take_take`), so the two ways end in the same state (`cancelAll_eq`). -/
namespace ShioSylar.IOManager
open Scheduler Lib

variable {σ φ κ : Type}

/-- `cancelEvent(fd, READ)` and then `cancelEvent(fd, WRITE)`, and whether one of them
returned true. -/
def State.cancelEach [DecidableEq σ] (s : State σ φ κ) (fd : Nat) (read write : Bool) :
    Except Fault (Bool × State σ φ κ) :=
  (s.cancelEvent fd .read read).bind fun r =>
    (r.2.cancelEvent fd .write write).map fun w => (r.1 || w.1, w.2)

theorem Mask.eq_of_has {m : Mask} {r w : Bool} (hr : m.has .read = r) (hw : m.has .write = w) :
    m = ⟨r, w⟩ := by
  subst hr hw
  rfl

/-- The second direction is not touched by taking off the first. -/
theorem fault_disarmRead (ctx : FdContext σ φ κ) :
    (ctx.disarmMask (Mask.only .read)).faultMask (Mask.only .write) = ctx.faultMask (Mask.only .write) := by
  have hne : Event.write ≠ .read := by simp
  have hother := (fault_disarm ctx hne).1
  have hdisarm : ctx.disarmMask (Mask.only .read) = ctx.disarm .read := rfl
  rw [hdisarm]
  simp only [FdContext.faultMask, hother]
  rfl

/-- The first fault of both directions. -/
theorem faultMask_both (ctx : FdContext σ φ κ) :
    ctx.faultMask ⟨true, true⟩ = (ctx.faultMask (Mask.only .read) <|> ctx.faultMask (Mask.only .write)) := by
  unfold FdContext.faultMask
  cases ctx.fault .read <;> cases ctx.fault .write <;> rfl

section
variable [DecidableEq σ] {s : State σ φ κ} {fd : Nat}

omit [DecidableEq σ] in
/-- A context that is written twice. -/
theorem put_put (ctx ctx' : FdContext σ φ κ) (fibers fibers' : σ → List (FiberAndThread φ κ)) :
    (s.put fd ctx fibers).put fd ctx' fibers' = s.put fd ctx' fibers' := by
  have hcount : ∀ a b c d : Int, a + (b - c) + (d - b) = a + (d - c) := fun a b c d => by omega
  simp only [State.put, State.write, Function.update_self, Function.update_idem, hcount]

/-- READ and then WRITE. -/
theorem take_take (h : Consistent s) (hfd : fd < s.fdContexts.length) :
    (s.take fd (Mask.only .read)).take fd (Mask.only .write) = s.take fd ⟨true, true⟩ := by
  have hview : (s.take fd (Mask.only .read)).view fd = (s.view fd).disarmMask (Mask.only .read) := by
    rw [take_view h hfd, Function.update_self]
  rw [State.take, hview, State.take, put_put, State.take]
  have hne : Event.write ≠ .read := by simp
  have hother := (fault_disarm (s.view fd) hne).2
  have hpush : pushMask (pushMask s.fibers (s.view fd) (Mask.only .read))
      ((s.view fd).disarmMask (Mask.only .read)) (Mask.only .write) =
      pushMask s.fibers (s.view fd) ⟨true, true⟩ :=
    congrArg (pushSlot (pushSlot s.fibers ((s.view fd).getContext .read))) hother
  exact congrArg (s.put fd _) hpush

/-- The triggers of the directions of a mask. -/
def State.trigger (s : State σ φ κ) (fd : Nat) (m : Mask) : Except Fault (Bool × State σ φ κ) :=
  match (s.view fd).faultMask m with
  | some f => .error f
  | none => .ok (true, s.take fd m)

theorem cancelEvent_on (h : Consistent s) {e : Event} (he : (s.view fd).events.has e = true) :
    s.cancelEvent fd e true = s.trigger fd (Mask.only e) := by
  rw [cancelEvent_spec h, if_neg (by simp [he])]
  rfl

theorem cancelEvent_off (h : Consistent s) {e : Event} (he : (s.view fd).events.has e = false) :
    s.cancelEvent fd e true = .ok (false, s) := by
  rw [cancelEvent_spec h, if_pos (.inl he)]

/-- The WRITE direction after READ was taken off. -/
theorem write_after_read (h : Consistent s) (hfd : fd < s.fdContexts.length) :
    ((s.take fd (Mask.only .read)).view fd).events.has .write = (s.view fd).events.has .write ∧
      (s.take fd (Mask.only .read)).trigger fd (Mask.only .write) =
        match (s.view fd).faultMask (Mask.only .write) with
        | some f => .error f
        | none => .ok (true, s.take fd ⟨true, true⟩) := by
  have hview : (s.take fd (Mask.only .read)).view fd = (s.view fd).disarmMask (Mask.only .read) := by
    rw [take_view h hfd, Function.update_self]
  constructor
  · rw [hview, events_disarmMask, diff_only, Mask.has_remove]
    rfl
  · rw [State.trigger, hview, fault_disarmRead, take_take h hfd]

/-- Whatever is armed, the directions of the mask are triggered one after the other. -/
theorem cancelEach_eq (h : Consistent s) (hne : (s.view fd).events ≠ Mask.none) :
    s.cancelEach fd true true = s.trigger fd (s.view fd).events := by
  unfold State.cancelEach
  cases hr : (s.view fd).events.has .read with
  | false =>
    rw [cancelEvent_off h hr]
    show (s.cancelEvent fd .write true).map (fun w => (false || w.1, w.2)) = _
    cases hw : (s.view fd).events.has .write with
    | false => exact absurd (Mask.eq_of_has hr hw) hne
    | true =>
      rw [cancelEvent_on h hw, Mask.eq_of_has hr hw]
      show (s.trigger fd (Mask.only .write)).map _ = s.trigger fd (Mask.only .write)
      cases s.trigger fd (Mask.only .write) <;> rfl
  | true =>
    have hafter := write_after_read h (lt_of_armed hr)
    have hcons := take_consistent h (lt_of_armed hr) (Mask.only .read)
    rw [cancelEvent_on h hr, State.trigger, State.trigger]
    cases hw : (s.view fd).events.has .write with
    | false =>
      rw [Mask.eq_of_has hr hw]
      show _ = (match (s.view fd).faultMask (Mask.only .read) with
        | some f => Except.error f
        | none => .ok (true, s.take fd (Mask.only .read)))
      cases (s.view fd).faultMask (Mask.only .read) with
      | some f => rfl
      | none =>
        show ((s.take fd (Mask.only .read)).cancelEvent fd .write true).map
          (fun w => (true || w.1, w.2)) = _
        rw [cancelEvent_off hcons (hafter.1.trans hw)]
        rfl
    | true =>
      rw [Mask.eq_of_has hr hw, faultMask_both]
      cases (s.view fd).faultMask (Mask.only .read) with
      | some f => rfl
      | none =>
        show ((s.take fd (Mask.only .read)).cancelEvent fd .write true).map
          (fun w => (true || w.1, w.2)) = _
        rw [cancelEvent_on hcons (hafter.1.trans hw), hafter.2]
        cases (s.view fd).faultMask (Mask.only .write) <;> rfl

omit [DecidableEq σ] in
/-- The triggers of what is armed do not fail their assertion. -/
theorem faultMask_events (ctx : FdContext σ φ κ) : ctx.faultMask ctx.events ≠ some .assertion := by
  have hfault : ∀ e, ctx.events.has e = true → ctx.fault e ≠ some .assertion := by
    intro e he
    rw [FdContext.fault, if_neg (by simp [he])]
    split <;> simp
  intro h
  rcases (Option.orElse_eq_some ..).mp h with hr | ⟨-, hw⟩
  · obtain ⟨he, hr⟩ := Option.ite_none_right_eq_some.mp hr
    exact hfault .read he hr
  · obtain ⟨he, hw⟩ := Option.ite_none_right_eq_some.mp hw
    exact hfault .write he hw

/-- **`cancelAll` is both cancels.** Where every `epoll_ctl` succeeds, `cancelAll` comes to the
same answer and the same state as a `cancelEvent` of READ followed by one of WRITE: contexts,
kernel set, counter and queues. If one of them goes through a null scheduler so does the other,
and no assertion fails. -/
theorem cancelAll_eq (s : State σ φ κ) (h : Consistent s) (fd : Nat) :
    s.cancelAll fd true = s.cancelEach fd true true ∧ s.cancelAll fd true ≠ .error .assertion := by
  rw [cancelAll_spec h]
  by_cases hne : (s.view fd).events = Mask.none
  · rw [if_pos (.inl hne)]
    refine ⟨?_, nofun⟩
    unfold State.cancelEach
    rw [cancelEvent_off h (by rw [hne]; rfl)]
    show _ = (s.cancelEvent fd .write true).map fun w => (false || w.1, w.2)
    rw [cancelEvent_off h (by rw [hne]; rfl)]
    rfl
  · rw [if_neg (by simp [hne]), cancelEach_eq h hne]
    refine ⟨rfl, ?_⟩
    have hf := faultMask_events (s.view fd)
    cases hm : (s.view fd).faultMask (s.view fd).events with
    | none => exact nofun
    | some f =>
      rintro ⟨⟩
      exact hf hm

end

/-- A fiber waits to read and a callback to write. -/
def bothCalls : List (Op Nat Nat Nat) :=
  [.addEvent 3 .read ⟨some 0, 7⟩ none true, .addEvent 3 .write ⟨some 1, 8⟩ (some 5) true]

theorem cancelAll_eq_both : ∃ p, run step Process.start bothCalls = some p ∧
    (p.table.view 3).events = ⟨true, true⟩ ∧
    p.table.cancelAll 3 true = p.table.cancelEach 3 true true ∧
    p.table.cancelAll 3 true ≠ .error .assertion := by
  have hsound : ∀ p, run step Process.start bothCalls = some p → Sound p := fun p h =>
    run_invariant (G := fun p op => op.Valid p.table) (fun _ _ _ hp hv hs => step_sound hp hv hs)
      start_sound (by decide) h
  exact ⟨_, rfl, rfl, cancelAll_eq _ (hsound _ rfl).consistent 3⟩

end ShioSylar.IOManager
