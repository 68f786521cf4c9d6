import ShioSylar.Scheduler.Alone
import ShioSylar.Scheduler.Contexts

/-! What the contexts have to do with the workers.

In every run whose scans take free fibers no pointer is null when it is used, no context is
loaded that is not saved, and a thread executes the code that its position in `Workers` says
(`contexts_reachable`): `GetThis` answers with the fiber that runs, a `swapOut` goes back to the
`run` of the thread it is called on, whichever thread the fiber started on, and no stack is
executed by two threads. `Coherent` is where each thread and each context is. -/
namespace ShioSylar.Scheduler.Contexts
open Lib Workers

variable {ω φ κ : Type}

section
variable [DecidableEq ω]

/-- A thread executes `run`, and `t_fiber` is the fiber of it. -/
def Home (s : State ω φ κ) (w : ω) : Prop :=
  s.stack w = s.loop w ∧ (s.locals w).fiber = some (s.loop w)

/-- Where a thread is at each of its points in `Workers`. -/
def Seat (s : State ω φ κ) (w : ω) : Pc φ κ → Prop
  | .out => s.rootThread ≠ some w → s.stack w = .main w ∧ (s.locals w).fiber = none
  | .inside .entered _ f => s.stack w = s.loop w ∧ (s.locals w).fiber = some (.task f)
  | .inside .running _ f =>
    s.stack w = .task f ∧ (s.locals w).fiber = some (.task f) ∧ s.ctx (s.loop w) = some (s.loop w) ∧
      (s.frame (.task f) = .start ∨ s.frame (.task f) = .callback (.task f)) ∧
      ∀ r, s.sched.fiber f = some r → r.saved = false
  | .inside .leaving _ f =>
    s.stack w = .task f ∧ (s.locals w).fiber = some (s.loop w) ∧ s.ctx (s.loop w) = some (s.loop w) ∧
      (s.frame (.task f) = .swapOut (.task f) (.task f) ∨ s.frame (.task f) = .last (.task f))
  | .exited => Home s w ∨ s.rootThread = some w ∧ s.stack w = .main w
  | _ => Home s w

/-- How far the thread of `m_rootFiber` is: before `stop`, in `call`, in `run`, or back. -/
inductive Phase (s : State ω φ κ) (w : ω) : Prop
  | constructed (pc : s.sched.pc w = .out) (stack : s.stack w = .main w) (frame : s.frame .root = .start)
      (ctx : s.ctx .root = some .root)
  | called (pc : s.sched.pc w = .out) (stack : s.stack w = .root) (frame : s.frame .root = .start)
      (fiber : (s.locals w).fiber = some .root) (ctx : s.ctx (.main w) = some (.main w))
  | inside (pc : s.sched.pc w ≠ .out) (stack : s.stack w ≠ .main w)
      (frame : s.frame .root = .callback .root) (ctx : s.ctx (.main w) = some (.main w))
  | returned (pc : s.sched.pc w = .exited) (stack : s.stack w = .main w)
      (frame : s.frame .root = .last .root)

structure Rooted (s : State ω φ κ) (w : ω) : Prop where
  threadFiber : (s.locals w).threadFiber = some (.main w)
  schedulerFiber : (s.locals w).schedulerFiber = some .root
  phase : Phase s w

/-- The context and the frame of a fiber with the record. -/
structure Kept (s : State ω φ κ) (f : φ) (r : Fiber κ) : Prop where
  ctx : r.saved = true → s.ctx (.task f) = some (.task f)
  frame : r.saved = true → s.frame (.task f) = .start ∨ (∃ x, s.frame (.task f) = .swapOut (.task f) x) ∨
    ∃ x, s.frame (.task f) = .last x
  last : ∀ x, s.frame (.task f) = .last x → r.ended = true

structure Coherent (s : State ω φ κ) : Prop where
  fault : s.fault = none
  main : ∀ w, s.frame (.main w) = .start
  seat : ∀ w, Seat s w (s.sched.pc w)
  scheduler : ∀ w, s.sched.pc w ≠ .out → (s.locals w).schedulerFiber = some (s.loop w)
  rooted : ∀ w, s.rootThread = some w → Rooted s w
  kept : ∀ f r, s.sched.fiber f = some r → Kept s f r

theorem start_coherent : Coherent (start : State ω φ κ) :=
  ⟨rfl, fun _ => rfl, fun _ _ => ⟨rfl, rfl⟩, fun _ h => absurd rfl h, (fun _ h => by cases h), (fun _ _ h => by cases h)⟩

/-- The references of a thread's own: its main fiber, and `m_rootFiber` on its thread. -/
def State.Owns (s : State ω φ κ) (w : ω) (x : Ref ω φ) : Prop :=
  x = .main w ∨ x = .root ∧ s.rootThread = some w

section
variable {s t : State ω φ κ} {w w' : ω} {f : φ}

theorem owns_loop (s : State ω φ κ) (w : ω) : s.Owns w (s.loop w) := by
  unfold State.loop
  split
  · rename_i h
    exact .inr ⟨rfl, h⟩
  · exact .inl rfl

omit [DecidableEq ω] in
theorem owns_unique {x : Ref ω φ} (h : s.Owns w x) (h' : s.Owns w' x) : w = w' := by
  obtain rfl | ⟨rfl, hr⟩ := h
  · obtain h' | ⟨h', -⟩ := h'
    · cases h'
      rfl
    · cases h'
  · obtain h' | ⟨-, hr'⟩ := h'
    · cases h'
    · exact Option.some.inj (hr.symm.trans hr')

omit [DecidableEq ω] in
theorem owns_ne_task {x : Ref ω φ} (h : s.Owns w x) (f : φ) : x ≠ .task f := by
  rintro rfl
  obtain h | ⟨h, -⟩ := h
  · cases h
  · cases h

theorem loop_ne_task (s : State ω φ κ) (w : ω) (f : φ) : s.loop w ≠ .task f :=
  owns_ne_task (owns_loop s w) f

omit [DecidableEq ω] in
theorem task_ne_main (h : s.stack w = .task f) : s.stack w ≠ .main w := by
  rw [h]
  intro h
  cases h

theorem loop_congr (h : t.rootThread = some w ↔ s.rootThread = some w) : t.loop w = s.loop w := by
  unfold State.loop
  simp only [h]

/-- What a thread's seat depends on. -/
theorem Seat.congr {pc : Pc φ κ} (k : Seat s w pc) (hroot : t.rootThread = some w ↔ s.rootThread = some w)
    (hstack : t.stack w = s.stack w) (hlocals : t.locals w = s.locals w)
    (hctx : t.ctx (s.loop w) = s.ctx (s.loop w))
    (hfiber : ∀ st kd f, pc = .inside st kd f →
      t.frame (.task f) = s.frame (.task f) ∧ t.sched.fiber f = s.sched.fiber f) : Seat t w pc := by
  have hloop := loop_congr hroot
  rcases pc with _ | _ | ft | ⟨st, kd, f⟩ | _
  · exact fun h => by rw [hstack, hlocals]; exact k fun h' => h (hroot.mpr h')
  · exact ⟨by rw [hstack, hloop]; exact k.1, by rw [hlocals, hloop]; exact k.2⟩
  · exact ⟨by rw [hstack, hloop]; exact k.1, by rw [hlocals, hloop]; exact k.2⟩
  · obtain ⟨hframe, hrec⟩ := hfiber st kd f rfl
    cases st with
    | entered => exact ⟨by rw [hstack, hloop]; exact k.1, by rw [hlocals]; exact k.2⟩
    | running =>
      obtain ⟨h₁, h₂, h₃, h₄, h₅⟩ := k
      exact ⟨hstack.trans h₁, by rw [hlocals]; exact h₂, by rw [hloop, hctx]; exact h₃,
        by rw [hframe]; exact h₄, by rw [hrec]; exact h₅⟩
    | leaving =>
      obtain ⟨h₁, h₂, h₃, h₄⟩ := k
      exact ⟨hstack.trans h₁, by rw [hlocals, hloop]; exact h₂, by rw [hloop, hctx]; exact h₃,
        by rw [hframe]; exact h₄⟩
    | entry | back | check | hold =>
      exact ⟨by rw [hstack, hloop]; exact k.1, by rw [hlocals, hloop]; exact k.2⟩
  · refine k.imp (fun k => ⟨by rw [hstack, hloop]; exact k.1, by rw [hlocals, hloop]; exact k.2⟩) fun k => ?_
    exact ⟨hroot.mpr k.1, hstack.trans k.2⟩

omit [DecidableEq ω] in
theorem Phase.congr (k : Phase s w) (hpc : t.sched.pc w = s.sched.pc w) (hstack : t.stack w = s.stack w)
    (hlocals : t.locals w = s.locals w) (hframe : t.frame .root = s.frame .root)
    (hctx : t.ctx .root = s.ctx .root) (hmain : t.ctx (.main w) = s.ctx (.main w)) : Phase t w := by
  cases k with
  | constructed h₁ h₂ h₃ h₄ =>
    exact .constructed (hpc.trans h₁) (hstack.trans h₂) (hframe.trans h₃) (hctx.trans h₄)
  | called h₁ h₂ h₃ h₄ h₅ =>
    exact .called (hpc.trans h₁) (hstack.trans h₂) (hframe.trans h₃) (hlocals ▸ h₄) (hmain.trans h₅)
  | inside h₁ h₂ h₃ h₄ =>
    exact .inside (by rw [hpc]; exact h₁) (by rw [hstack]; exact h₂) (hframe.trans h₃) (hmain.trans h₄)
  | returned h₁ h₂ h₃ => exact .returned (hpc.trans h₁) (hstack.trans h₂) (hframe.trans h₃)

/-- What a step of one thread does to a fiber: nothing, or no other thread is inside it and its
context and frame go with the new record. -/
inductive Fares (s t : State ω φ κ) (w : ω) (f : φ) : Prop
  | same (record : t.sched.fiber f = s.sched.fiber f) (frame : t.frame (.task f) = s.frame (.task f))
      (ctx : t.ctx (.task f) = s.ctx (.task f))
  | anew (alone : ∀ w' st kd, w' ≠ w → s.sched.pc w' ≠ .inside st kd f)
      (kept : ∀ r, t.sched.fiber f = some r → Kept t f r)

/-- One thread moves; the others keep their pointers and their own contexts. -/
theorem Coherent.move (k : Coherent s) (hroot : t.rootThread = s.rootThread) (hfault : t.fault = none)
    (hmain : ∀ w, t.frame (.main w) = s.frame (.main w)) (hpc : ∀ w', w' ≠ w → t.sched.pc w' = s.sched.pc w')
    (hstack : ∀ w', w' ≠ w → t.stack w' = s.stack w') (hlocals : ∀ w', w' ≠ w → t.locals w' = s.locals w')
    (hown : ∀ w' x, w' ≠ w → s.Owns w' x → t.ctx x = s.ctx x ∧ t.frame x = s.frame x)
    (hfiber : ∀ f, Fares s t w f) (hseat : Seat t w (t.sched.pc w))
    (hscheduler : t.sched.pc w ≠ .out → (t.locals w).schedulerFiber = some (s.loop w))
    (hrooted : s.rootThread = some w → Rooted t w) : Coherent t := by
  refine ⟨hfault, fun w' => (hmain w').trans (k.main w'), fun w' => ?_, fun w' hout => ?_, fun w' hw' => ?_,
    fun f r hr => ?_⟩
  · by_cases hw : w' = w
    · exact hw ▸ hseat
    · rw [hpc w' hw]
      refine (k.seat w').congr (by rw [hroot]) (hstack w' hw) (hlocals w' hw) (hown w' _ hw (owns_loop s w')).1 ?_
      intro st kd f hin
      cases hfiber f with
      | same hrec hframe hctx => exact ⟨hframe, hrec⟩
      | anew halone hkept => exact absurd hin (halone w' st kd hw)
  · rw [loop_congr (t := t) (s := s) (by rw [hroot])]
    by_cases hw : w' = w
    · subst hw
      exact hscheduler hout
    · rw [hlocals w' hw]
      exact k.scheduler w' (hpc w' hw ▸ hout)
  · rw [hroot] at hw'
    by_cases hw : w' = w
    · exact hw ▸ hrooted (hw ▸ hw')
    · obtain ⟨h₁, h₂, h₃⟩ := k.rooted w' hw'
      refine ⟨by rw [hlocals w' hw]; exact h₁, by rw [hlocals w' hw]; exact h₂, ?_⟩
      obtain ⟨hctx, hframe⟩ := hown w' .root hw (.inr ⟨rfl, hw'⟩)
      exact h₃.congr (hpc w' hw) (hstack w' hw) (hlocals w' hw) hframe hctx (hown w' _ hw (.inl rfl)).1
  · cases hfiber f with
    | same hrec hframe hctx =>
      obtain ⟨h₁, h₂, h₃⟩ := k.kept f r (hrec ▸ hr)
      exact ⟨by rw [hctx]; exact h₁, by rw [hframe]; exact h₂, by rw [hframe]; exact h₃⟩
    | anew halone hkept => exact hkept r hr

/-- The points of `run` itself. -/
def homely : Pc φ κ → Bool
  | .top | .chosen _ => true
  | .inside st _ _ => st = .entry ∨ st = .back ∨ st = .check ∨ st = .hold
  | _ => false

theorem seat_homely {pc : Pc φ κ} (h : homely pc = true) : Seat s w pc ↔ Home s w := by
  rcases pc with _ | _ | ft | ⟨st, kd, f⟩ | _
  · cases h
  · exact Iff.rfl
  · exact Iff.rfl
  · cases st with
    | entry | back | check | hold => exact Iff.rfl
    | entered | running | leaving => simp [homely] at h
  · cases h

/-- A thread in `run`, with its own fiber. -/
theorem Coherent.phase_home (k : Coherent s) (hw : s.rootThread = some w) (hout : s.sched.pc w ≠ .out)
    (hstack : s.stack w ≠ .main w) : s.frame .root = .callback .root ∧ s.ctx (.main w) = some (.main w) := by
  cases (k.rooted w hw).phase with
  | constructed hpc => exact absurd hpc hout
  | called hpc => exact absurd hpc hout
  | inside hpc hst hframe hctx => exact ⟨hframe, hctx⟩
  | returned hpc hst => exact absurd hst hstack

theorem home_ne_main (hw : s.rootThread = some w) (h : s.stack w = s.loop w) : s.stack w ≠ .main w := by
  rw [h, State.loop, if_pos hw]
  intro h
  cases h

/-- A thread goes from one point of `run` to another. -/
theorem Coherent.stays (k : Coherent s) {x : Worker φ κ} (hhome : homely (s.sched.pc w) = true)
    (hroot : t.rootThread = s.rootThread) (hfault : t.fault = none) (hstack : t.stack = s.stack)
    (hlocals : t.locals = s.locals) (hown : ∀ w' x, s.Owns w' x → t.ctx x = s.ctx x ∧ t.frame x = s.frame x)
    (hw : t.sched.worker = Function.update s.sched.worker w x) (hx : homely x.pc = true ∨ x.pc = .exited)
    (hfiber : ∀ f, Fares s t w f) : Coherent t := by
  have hself : t.sched.pc w = x.pc := pc_update_self hw
  have hat := (seat_homely hhome).mp (k.seat w)
  have hout : s.sched.pc w ≠ .out := fun h => by rw [h] at hhome; cases hhome
  have hout' : x.pc ≠ .out := by
    rintro h
    rw [h] at hx
    cases hx with
    | inl hx => cases hx
    | inr hx => cases hx
  have hthere : Home t w := by
    refine ⟨?_, ?_⟩
    · rw [hstack, loop_congr (t := t) (s := s) (by rw [hroot])]
      exact hat.1
    · rw [hlocals, loop_congr (t := t) (s := s) (by rw [hroot])]
      exact hat.2
  refine k.move hroot hfault (fun w' => (hown w' _ (.inl rfl)).2) (fun w' hne => pc_update_of_ne hw hne)
    (fun w' _ => by rw [hstack])
    (fun w' _ => by rw [hlocals]) (fun w' x _ => hown w' x) hfiber ?_ (fun _ => ?_) (fun hwroot => ?_)
  · rw [hself]
    obtain hx | hx := hx
    · exact (seat_homely hx).mpr hthere
    · rw [hx]
      exact .inl hthere
  · rw [hlocals]
    exact k.scheduler w hout
  · obtain ⟨h₁, h₂, -⟩ := k.rooted w hwroot
    have hne := home_ne_main hwroot hat.1
    obtain ⟨hframe, hctx⟩ := k.phase_home hwroot hout hne
    refine ⟨by rw [hlocals]; exact h₁, by rw [hlocals]; exact h₂, .inside (hself ▸ hout') (by rw [hstack]; exact hne) ?_ ?_⟩
    · rw [(hown w .root (.inr ⟨rfl, hwroot⟩)).2]
      exact hframe
    · rw [(hown w (.main w) (.inl rfl)).1]
      exact hctx

end

/-! ### The steps of `run` -/

variable [DecidableEq φ]

section
variable {thread : ω → Int} {s : State ω φ κ} {t : Workers.State ω φ κ} {w : ω} {f g : φ} {r r' : Fiber κ}

omit [DecidableEq ω] [DecidableEq φ] in
@[simp] theorem withSched_some (s : State ω φ κ) (t : Workers.State ω φ κ) :
    s.withSched (some t) = some { s with sched := t } := rfl

omit [DecidableEq ω] [DecidableEq φ] in
/-- A record is rewritten in place. -/
theorem Kept.rewrite (k : Kept s f r) (hsaved : r'.saved = r.saved) (hended : r.ended = true → r'.ended = true) :
    Kept s f r' :=
  ⟨fun h => k.ctx (hsaved ▸ h), fun h => k.frame (hsaved ▸ h), fun x hx => hended (k.last x hx)⟩

theorem kept_makecontext (s : State ω φ κ) (f : φ) (r : Fiber κ) : Kept (s.makecontext (.task f)) f r := by
  have hframe : (s.makecontext (.task f)).frame (.task f) = .start := by simp [State.makecontext, State.setFrame]
  refine ⟨fun _ => by simp [State.makecontext], fun _ => .inl hframe, fun x hx => ?_⟩
  rw [hframe] at hx
  cases hx

omit [DecidableEq ω] [DecidableEq φ] in
/-- No other worker is inside a fiber that one is inside. -/
theorem alone_inside {s : Workers.State ω φ κ} (u : Sole s) {st : Stage} {kd : Kind}
    (hpc : s.pc w = .inside st kd f) (w' : ω) (st' : Stage) (kd' : Kind) (hne : w' ≠ w) :
    s.pc w' ≠ .inside st' kd' f :=
  fun h => hne (u.unique w' w f (engages_inside h) (engages_inside hpc))

omit [DecidableEq ω] [DecidableEq φ] in
theorem nobody_inside {s : Workers.State ω φ κ} (o : Owned s) (hf : s.fiber f = none) (w' : ω) (st : Stage)
    (kd : Kind) : s.pc w' ≠ .inside st kd f :=
  fun h => (o.nobody hf w').1 (by rw [h]; rfl)

omit [DecidableEq φ] in
/-- `run` goes on, and no context is made. -/
theorem Coherent.plain (k : Coherent s) {x : Worker φ κ} (hhome : homely (s.sched.pc w) = true)
    (hw : t.worker = Function.update s.sched.worker w x) (hx : homely x.pc = true ∨ x.pc = .exited)
    (hfiber : ∀ f, t.fiber f = s.sched.fiber f ∨
      (∀ w' st kd, w' ≠ w → s.sched.pc w' ≠ .inside st kd f) ∧ ∀ r, t.fiber f = some r → Kept s f r) :
    Coherent { s with sched := t } := by
  refine k.stays hhome rfl k.fault rfl rfl (fun _ _ _ => ⟨rfl, rfl⟩) hw hx fun f => ?_
  obtain h | ⟨halone, hkept⟩ := hfiber f
  · exact .same h rfl rfl
  · exact .anew halone fun r hr => ⟨(hkept r hr).ctx, (hkept r hr).frame, (hkept r hr).last⟩

/-- `run` makes a context for a fiber that no other thread is inside. -/
theorem Coherent.remade (k : Coherent s) {x : Worker φ κ} (hhome : homely (s.sched.pc w) = true)
    (hw : t.worker = Function.update s.sched.worker w x) (hx : homely x.pc = true ∨ x.pc = .exited)
    (hfiber : t.fiber = Function.update s.sched.fiber f (some r))
    (halone : ∀ w' st kd, w' ≠ w → s.sched.pc w' ≠ .inside st kd f) :
    Coherent { s.makecontext (.task f) with sched := t } := by
  refine k.stays hhome rfl k.fault rfl rfl (fun w' x hx => ?_) hw hx fun f' => ?_
  · have hne := owns_ne_task hx f
    exact ⟨Function.update_of_ne hne .., Function.update_of_ne hne ..⟩
  · by_cases hf : f' = f
    · subst hf
      refine .anew halone fun r' _ => ?_
      obtain ⟨h₁, h₂, h₃⟩ := kept_makecontext s f' r'
      exact ⟨h₁, h₂, h₃⟩
    · have hne : (.task f' : Ref ω φ) ≠ .task f := fun h => hf (Ref.task.inj h)
      refine .same ?_ (Function.update_of_ne hne ..) (Function.update_of_ne hne ..)
      show t.fiber f' = _
      rw [hfiber, Function.update_of_ne hf]

theorem remade_none (h : State.remakes s.sched w g = none) : s.remade w g = s := by
  rw [State.remade, h]

theorem remade_some (h : State.remakes s.sched w g = some f) : s.remade w g = s.makecontext (.task f) := by
  rw [State.remade, h]

/-- The points of `run` from which it switches to nobody. -/
def quiet : Pc φ κ → Bool
  | .inside .entry _ _ => false
  | pc => homely pc

omit [DecidableEq φ] in
theorem homely_of_quiet {pc : Pc φ κ} (h : quiet pc = true) : homely pc = true := by
  unfold quiet at h
  split at h
  · cases h
  · exact h

theorem work_quiet (k : Coherent s) (hq : quiet (s.sched.pc w) = true) :
    s.work thread w g = (s.remade w g).withSched (s.sched.work thread w g) := by
  have hat := ((seat_homely (homely_of_quiet hq)).mp (k.seat w)).1
  unfold State.work
  rcases hpc : s.sched.pc w with _ | _ | ft | ⟨st, kd, f⟩ | _ <;> rw [hpc] at hq
  · cases hq
  · simp only [ne_eq, hat, not_true_eq_false, if_false]
  · simp only [ne_eq, hat, not_true_eq_false, if_false]
  · cases st with
    | back | check | hold => simp only [ne_eq, hat, not_true_eq_false, if_false]
    | entry | entered | running | leaving => simp [quiet, homely] at hq
  · cases hq

/-- A step of `run` that switches to nobody. -/
theorem Coherent.quiet_step (k : Coherent s) (o : Owned s.sched) (u : Sole s.sched)
    (hq : quiet (s.sched.pc w) = true) (e : Effect thread s.sched (.work w g) t) :
    Coherent { s.remade w g with sched := t } := by
  have hhome := homely_of_quiet hq
  cases e with
  | fails h => exact absurd h (u.not_fails o)
  | scans hpc hx =>
    rw [remade_none (by simp [State.remakes, hpc])]
    exact k.plain hhome rfl (.inl rfl) fun _ => .inl rfl
  | @runs _ _ ft f hpc hrun =>
    rw [remade_none (by simp [State.remakes, hpc, hrun])]
    exact k.plain hhome rfl (.inl rfl) fun _ => .inl rfl
  | @resets _ _ ft cb h r r' hpc hrun hcb hown hr hreset =>
    rw [remade_some (f := h) (by simp [State.remakes, hpc, hrun, hcb, hown])]
    refine k.remade hhome rfl (.inl rfl) rfl fun w' st kd hne hin => ?_
    exact hne (o.cb_engaged hown (engages_inside hin)).1
  | @makes _ _ ft cb hpc hrun hcb hown hg =>
    rw [remade_some (f := g) (by simp [State.remakes, hpc, hrun, hcb, hown])]
    exact k.remade hhome rfl (.inl rfl) rfl fun w' st kd _ => nobody_inside o hg w' st kd
  | @discards _ _ ft hpc hrun hcb =>
    rw [remade_none (by simp [State.remakes, hpc, hrun, hcb])]
    exact k.plain hhome rfl (.inl rfl) fun _ => .inl rfl
  | exits hpc hown hterm =>
    rw [remade_none (by simp [State.remakes, hpc])]
    exact k.plain hhome rfl (.inr rfl) fun _ => .inl rfl
  | idles hpc hown hterm =>
    rw [remade_none (by simp [State.remakes, hpc])]
    exact k.plain hhome rfl (.inl rfl) fun _ => .inl rfl
  | rewrites hpc hr h hthrew hact =>
    cases hact with
    | ready ha => cases ha
    | other ha =>
      obtain ha | ⟨_, ha⟩ := ha
      · cases ha
      · cases ha
    | work ha hst =>
      cases ha
      rw [hpc] at hq
      cases h <;> cases hq
  | @backs _ _ kd f hpc =>
    rw [remade_none (by simp [State.remakes, hpc])]
    exact k.plain hhome rfl (.inl rfl) fun _ => .inl rfl
  | @readies _ _ kd f r hpc hr hready hk =>
    have hnone : State.remakes s.sched w g = none := by
      cases kd <;> simp [State.remakes, hpc, hr, Fiber.ended, hready]
    rw [remade_none hnone]
    exact k.plain hhome rfl (.inl rfl) fun _ => .inl rfl
  | @ends _ _ kd f r hpc hr hend hk =>
    have hnone : State.remakes s.sched w g = none := by
      cases kd with
      | callback => exact absurd rfl hk
      | task | idle => simp [State.remakes, hpc]
    rw [remade_none hnone]
    exact k.plain hhome rfl (.inl rfl) fun _ => .inl rfl
  | @empties _ _ f r hpc hr hend =>
    rw [remade_some (f := f) (by simp [State.remakes, hpc, hr, hend])]
    exact k.remade hhome rfl (.inl rfl) rfl fun w' st kd hne => alone_inside u hpc w' st kd hne
  | @checks _ _ kd f r hpc hr hready hend =>
    have hnone : State.remakes s.sched w g = none := by
      cases kd <;> simp [State.remakes, hpc, hr, hend]
    rw [remade_none hnone]
    exact k.plain hhome rfl (.inl rfl) fun _ => .inl rfl
  | @holds _ _ kd f r hpc hr =>
    rw [remade_none (by simp [State.remakes, hpc])]
    have hended : r.ended = false := (u.stands_here hpc hr).2
    refine k.plain hhome rfl (.inl rfl) fun f' => ?_
    by_cases hf : f' = f
    · subst hf
      refine .inr ⟨fun w' st kd hne => alone_inside u hpc w' st kd hne, fun r' hr' => ?_⟩
      have hr' : (Function.update s.sched.fiber f' (some { r with state := .hold })) f' = some r' := hr'
      rw [Function.update_self] at hr'
      cases hr'
      exact (k.kept f' r hr).rewrite rfl fun h => by cases hended.symm.trans h
    · exact .inl (Function.update_of_ne hf ..)

/-! ### Switches -/

theorem work_entry {kd : Kind} (k : Coherent s) (hpc : s.sched.pc w = .inside .entry kd f) :
    s.work thread w g = (s.setThis w (some (.task f))).withSched (s.sched.work thread w g) := by
  have hat : s.stack w = s.loop w := by
    have h := k.seat w
    rw [hpc] at h
    exact h.1
  simp only [State.work, hpc, ne_eq, hat, not_true_eq_false, if_false]

/-- `SetThis` and the write of EXEC in `swapIn`. -/
theorem Coherent.entry_step {kd : Kind} (k : Coherent s) (u : Sole s.sched)
    (hpc : s.sched.pc w = .inside .entry kd f) (hr : s.sched.fiber f = some r)
    (ht : t.worker = Function.update s.sched.worker w { s.sched.worker w with pc := .inside .entered kd f })
    (hfiber : t.fiber = Function.update s.sched.fiber f (some { r with state := .exec })) :
    Coherent { s.setThis w (some (.task f)) with sched := t } := by
  have hself : t.pc w = .inside .entered kd f := pc_update_self ht
  have hended : r.ended = false := (u.stands_here hpc hr).2.2
  have hat : Home s w := by
    have h := k.seat w
    rw [hpc] at h
    exact h
  have hout : s.sched.pc w ≠ .out := fun h => by cases hpc.symm.trans h
  refine k.move (w := w) rfl k.fault (fun _ => rfl) (fun w' hne => pc_update_of_ne ht hne) (fun w' _ => rfl)
    (fun w' hne => Function.update_of_ne hne ..) (fun w' x _ _ => ⟨rfl, rfl⟩) (fun f' => ?_) ?_ (fun _ => ?_)
    (fun hw => ?_)
  · by_cases hf : f' = f
    · subst hf
      refine .anew (fun w' st kd hne => alone_inside u hpc w' st kd hne) fun r' hr' => ?_
      have hr' : t.fiber f' = some r' := hr'
      rw [hfiber, Function.update_self] at hr'
      cases hr'
      obtain ⟨h₁, h₂, h₃⟩ : Kept s f' { r with state := .exec } := (k.kept f' r hr).rewrite rfl fun h => by
        cases hended.symm.trans h
      exact ⟨h₁, h₂, h₃⟩
    · exact .same (by show t.fiber f' = _; rw [hfiber, Function.update_of_ne hf]) rfl rfl
  · show Seat _ w (t.pc w)
    rw [hself]
    exact ⟨hat.1, by simp [State.setThis, State.setLocal]⟩
  · show ((s.setThis w _).locals w).schedulerFiber = _
    simp only [State.setThis, State.setLocal, Function.update_self]
    exact k.scheduler w hout
  · obtain ⟨h₁, h₂, -⟩ := k.rooted w hw
    have hne := home_ne_main hw hat.1
    obtain ⟨hframe, hctx⟩ := k.phase_home hw hout hne
    refine ⟨by simpa [State.setThis, State.setLocal] using h₁, by simpa [State.setThis, State.setLocal] using h₂,
      .inside (fun h => ?_) hne hframe hctx⟩
    cases hself.symm.trans h

theorem swapcontext_eq {save load st : Ref ω φ} (hne : load ≠ save) (hctx : s.ctx load = some st) :
    s.swapcontext w save load =
      State.resume { s with
        ctx := Function.update (Function.update s.ctx save (some (s.stack w))) load none
        stack := Function.update s.stack w st } w := by
  simp [State.swapcontext, Function.update_of_ne hne, hctx]

/-- A fiber that has not ended goes on where it was. -/
theorem Kept.resume (k : Kept s f r) (hsaved : r.saved = true) (hended : r.ended = false) {m : State ω φ κ}
    (hframe : m.frame = s.frame) (hstack : m.stack w = .task f) : ∃ p, m.resume w = .ok { m with frame := p } ∧
      (∀ x, x ≠ .task f → p x = s.frame x) ∧ (p (.task f) = .start ∨ p (.task f) = .callback (.task f)) := by
  obtain h | ⟨x, h⟩ | ⟨x, h⟩ := k.frame hsaved
  · have hok : m.resume w = .ok m := by simp [State.resume, hstack, hframe, h]
    exact ⟨m.frame, hok, fun x _ => by rw [hframe], .inl (by rw [hframe, h])⟩
  · refine ⟨Function.update s.frame (.task f) (.callback (.task f)), ?_, fun x hx => Function.update_of_ne hx ..,
      .inr (Function.update_self ..)⟩
    simp [State.resume, hstack, hframe, h, State.setFrame]
  · cases hended.symm.trans (k.last x h)

/-- The contexts after the `swapcontext` of `swapIn`. -/
structure Entered (s m : State ω φ κ) (w : ω) (f : φ) : Prop where
  locals : m.locals = s.locals
  rootThread : m.rootThread = s.rootThread
  fault : m.fault = s.fault
  stack : m.stack = Function.update s.stack w (.task f)
  ctx : m.ctx = Function.update (Function.update s.ctx (s.loop w) (some (s.loop w))) (.task f) none
  frame : ∀ x, x ≠ .task f → m.frame x = s.frame x
  task : m.frame (.task f) = .start ∨ m.frame (.task f) = .callback (.task f)

theorem work_entered (thread : ω → Int) {kd : Kind} (k : Coherent s) (u : Sole s.sched) (hpc : s.sched.pc w = .inside .entered kd f) :
    ∃ m, Entered s m w f ∧ s.work thread w g = m.withSched (s.sched.work thread w g) := by
  obtain ⟨r, hr, hsaved, hexec⟩ := u.here hpc
  have hkept := k.kept f r hr
  have hat : s.stack w = s.loop w := by
    have h := k.seat w
    rw [hpc] at h
    exact h.1
  have hsched := k.scheduler w fun h => by cases hpc.symm.trans h
  have hne : (.task f : Ref ω φ) ≠ s.loop w := (loop_ne_task s w f).symm
  obtain ⟨p, hresume, hp, htask⟩ := hkept.resume hsaved (by simp [Fiber.ended, hexec]) (w := w)
    (m := { s with
      ctx := Function.update (Function.update s.ctx (s.loop w) (some (s.stack w))) (.task f) none
      stack := Function.update s.stack w (.task f) }) rfl (Function.update_self ..)
  refine ⟨{ s with
      ctx := Function.update (Function.update s.ctx (s.loop w) (some (s.stack w))) (.task f) none
      stack := Function.update s.stack w (.task f), frame := p },
    ⟨rfl, rfl, rfl, rfl, by rw [hat], hp, htask⟩, ?_⟩
  simp only [State.work, hpc, ne_eq, hat, not_true_eq_false, if_false, State.switch, hsched]
  rw [swapcontext_eq hne (hkept.ctx hsaved), hresume]
  simp only [Function.update_self, if_true, hat]

/-- A thread goes on on the stack of the fiber. -/
theorem Coherent.entered_step {kd : Kind} {m : State ω φ κ} (k : Coherent s) (u : Sole s.sched)
    (hpc : s.sched.pc w = .inside .entered kd f) (hm : Entered s m w f)
    (ht : t.worker = Function.update s.sched.worker w { s.sched.worker w with pc := .inside .running kd f })
    (hfiber : t.fiber = Function.update s.sched.fiber f (some { r with saved := false })) :
    Coherent { m with sched := t } := by
  have hself : t.pc w = .inside .running kd f := pc_update_self ht
  have hout : s.sched.pc w ≠ .out := fun h => by cases hpc.symm.trans h
  have hseat := k.seat w
  rw [hpc] at hseat
  have hne := loop_ne_task s w f
  have hloop : State.loop { m with sched := t } w = s.loop w :=
    loop_congr (t := { m with sched := t }) (by rw [← hm.rootThread])
  have hctx : ∀ x, x ≠ .task f → x ≠ s.loop w → m.ctx x = s.ctx x := fun x h h' => by
    rw [hm.ctx, Function.update_of_ne h, Function.update_of_ne h']
  refine k.move (w := w) hm.rootThread (hm.fault.trans k.fault) (fun w' => hm.frame _ fun h => by cases h)
    (fun w' hne => pc_update_of_ne ht hne) (fun w' hne => by rw [hm.stack, Function.update_of_ne hne])
    (fun w' _ => by rw [hm.locals]) (fun w' x hw hx => ?_) (fun f' => ?_) ?_ (fun _ => ?_) (fun hw => ?_)
  · have hxf := owns_ne_task hx f
    refine ⟨hctx x hxf ?_, hm.frame x hxf⟩
    rintro rfl
    exact hw (owns_unique hx (owns_loop s w))
  · by_cases hf : f' = f
    · subst hf
      refine .anew (fun w' st kd hne => alone_inside u hpc w' st kd hne) fun r' hr' => ?_
      have hr' : t.fiber f' = some r' := hr'
      rw [hfiber, Function.update_self] at hr'
      cases hr'
      refine ⟨fun h => (by cases h), fun h => (by cases h), fun x hx => ?_⟩
      have hx : m.frame (.task f') = .last x := hx
      rcases hm.task with h | h
      · cases hx.symm.trans h
      · cases hx.symm.trans h
    · have hff : (.task f' : Ref ω φ) ≠ .task f := fun h => hf (Ref.task.inj h)
      refine .same ?_ (hm.frame _ hff) (hctx _ hff (loop_ne_task s w f').symm)
      show t.fiber f' = _
      rw [hfiber, Function.update_of_ne hf]
  · show Seat _ w (t.pc w)
    rw [hself]
    refine ⟨?_, ?_, ?_, hm.task, fun r' hr' => ?_⟩
    · show m.stack w = _
      rw [hm.stack, Function.update_self]
    · show (m.locals w).fiber = _
      rw [hm.locals]
      exact hseat.2
    · rw [hloop]
      show m.ctx _ = _
      rw [hm.ctx, Function.update_of_ne hne, Function.update_self]
    · have hr' : t.fiber f = some r' := hr'
      rw [hfiber, Function.update_self] at hr'
      cases hr'
      rfl
  · show (m.locals w).schedulerFiber = _
    rw [hm.locals]
    exact k.scheduler w hout
  · obtain ⟨h₁, h₂, -⟩ := k.rooted w hw
    obtain ⟨hframe, hmain⟩ := k.phase_home hw hout (home_ne_main hw hseat.1)
    refine ⟨(by show (m.locals w).threadFiber = _; rw [hm.locals]; exact h₁),
      (by show (m.locals w).schedulerFiber = _; rw [hm.locals]; exact h₂), .inside (fun h => ?_) (fun h => ?_) ?_ ?_⟩
    · cases hself.symm.trans h
    · have h : m.stack w = .main w := h
      rw [hm.stack, Function.update_self] at h
      cases h
    · exact (hm.frame _ fun h => by cases h).trans hframe
    · refine (hctx _ (fun h => by cases h) ?_).trans hmain
      rw [State.loop, if_pos hw]
      intro h
      cases h

/-- The stack of `run` goes on in `run`. -/
theorem Coherent.resume_loop (k : Coherent s) (hout : s.sched.pc w ≠ .out) (hstack : s.stack w ≠ .main w)
    {m : State ω φ κ} (hframe : m.frame = s.frame) (hm : m.stack w = s.loop w) : m.resume w = .ok m := by
  have hloop : s.frame (s.loop w) = .start ∨ s.frame (s.loop w) = .callback .root := by
    unfold State.loop
    split
    · rename_i hw
      exact .inr (k.phase_home hw hout hstack).1
    · exact .inl (k.main w)
  rcases hloop with h | h <;> simp [State.resume, hm, hframe, h]

/-- The contexts after the `swapcontext` of `swapOut`. -/
def State.left (s : State ω φ κ) (w : ω) (f : φ) : State ω φ κ :=
  { s with
    ctx := Function.update (Function.update s.ctx (.task f) (some (.task f))) (s.loop w) none
    stack := Function.update s.stack w (s.loop w) }

theorem left_ctx (s : State ω φ κ) (w : ω) (f : φ) : (s.left w f).ctx =
    Function.update (Function.update s.ctx (.task f) (some (.task f))) (s.loop w) none := rfl

theorem work_leaving {kd : Kind} (k : Coherent s) (hpc : s.sched.pc w = .inside .leaving kd f) :
    s.work thread w g = (s.left w f).withSched (s.sched.work thread w g) := by
  have hseat := k.seat w
  rw [hpc] at hseat
  obtain ⟨hstack, -, hctx, hframe⟩ := hseat
  have hout : s.sched.pc w ≠ .out := fun h => by cases hpc.symm.trans h
  have hsched := k.scheduler w hout
  have hmain := task_ne_main hstack
  have hswitch := swapcontext_eq (w := w) (loop_ne_task s w f) hctx
  rw [k.resume_loop (m := { s with
      ctx := Function.update (Function.update s.ctx (.task f) (some (s.stack w))) (s.loop w) none
      stack := Function.update s.stack w (s.loop w) }) hout hmain rfl (Function.update_self ..)] at hswitch
  have hwork : s.sched.work thread w g = s.sched.modify f (·.switchFrom) fun t => t.goto w (.inside .back kd f) := by
    simp only [Workers.State.work, hpc]
  rw [hwork]
  simp only [State.work, hpc]
  rcases hframe with h | h <;>
    simp only [hstack, h, hsched, State.switch, hswitch, Function.update_self, if_true, State.left]

/-- A thread is back in `run`. -/
theorem Coherent.leaving_step {kd : Kind} (k : Coherent s) (u : Sole s.sched)
    (hpc : s.sched.pc w = .inside .leaving kd f) (hr : s.sched.fiber f = some r)
    (ht : t.worker = Function.update s.sched.worker w { s.sched.worker w with pc := .inside .back kd f })
    (hfiber : t.fiber = Function.update s.sched.fiber f (some { r with saved := true })) :
    Coherent { s.left w f with sched := t } := by
  have hself : t.pc w = .inside .back kd f := pc_update_self ht
  have hout : s.sched.pc w ≠ .out := fun h => by cases hpc.symm.trans h
  have hseat := k.seat w
  rw [hpc] at hseat
  obtain ⟨hstack, hthis, -, hframe⟩ := hseat
  have hne := loop_ne_task s w f
  have hctx : ∀ x, x ≠ .task f → x ≠ s.loop w → (s.left w f).ctx x = s.ctx x := fun x h h' => by
    rw [left_ctx, Function.update_of_ne h', Function.update_of_ne h]
  refine k.move (w := w) rfl k.fault (fun _ => rfl) (fun w' hne => pc_update_of_ne ht hne)
    (fun w' hne => Function.update_of_ne hne ..) (fun w' _ => rfl) (fun w' x hw hx => ?_) (fun f' => ?_) ?_
    (fun _ => k.scheduler w hout) (fun hw => ?_)
  · refine ⟨hctx x (owns_ne_task hx f) ?_, rfl⟩
    · rintro rfl
      exact hw (owns_unique hx (owns_loop s w))
  · by_cases hf : f' = f
    · subst hf
      refine .anew (fun w' st kd hne => alone_inside u hpc w' st kd hne) fun r' hr' => ?_
      have hr' : t.fiber f' = some r' := hr'
      rw [hfiber, Function.update_self] at hr'
      cases hr'
      refine ⟨fun _ => ?_, fun _ => .inr ?_, (k.kept f' r hr).last⟩
      · show (s.left w f').ctx _ = _
        rw [left_ctx, Function.update_of_ne hne.symm, Function.update_self]
      · exact hframe.imp (fun h => ⟨_, h⟩) fun h => ⟨_, h⟩
    · have hff : (.task f' : Ref ω φ) ≠ .task f := fun h => hf (Ref.task.inj h)
      refine .same ?_ rfl (hctx _ hff (loop_ne_task s w f').symm)
      show t.fiber f' = _
      rw [hfiber, Function.update_of_ne hf]
  · show Seat _ w (t.pc w)
    rw [hself]
    exact ⟨Function.update_self .., hthis⟩
  · obtain ⟨h₁, h₂, -⟩ := k.rooted w hw
    have hmain := task_ne_main hstack
    have hroot : s.loop w = .root := by rw [State.loop, if_pos hw]
    obtain ⟨hframe, hctx'⟩ := k.phase_home hw hout hmain
    refine ⟨h₁, h₂, .inside (fun h => by cases hself.symm.trans h) (fun h => ?_) hframe ?_⟩
    · have h : (Function.update s.stack w (s.loop w)) w = .main w := h
      rw [Function.update_self, hroot] at h
      cases h
    · refine (hctx _ (fun h => by cases h) ?_).trans hctx'
      rw [hroot]
      intro h
      cases h

/-! ### The code of a fiber -/

/-- The pointers and the frame after the `SetThis` of a `swapOut`. -/
def State.yielded (s : State ω φ κ) (w : ω) (f : φ) (ends : Bool) : State ω φ κ :=
  (s.setFrame (.task f) (if ends then .last (.task f) else .swapOut (.task f) (.task f))).setThis w
    (some (s.loop w))

theorem leave_eq {kd : Kind} {ends : Bool} {op : Fiber κ → Except Workers.Fault (Fiber κ)} (k : Coherent s)
    (hpc : s.sched.pc w = .inside .running kd f) (hframe : s.frame (.task f) = .callback (.task f)) :
    s.leave w ends op = (s.yielded w f ends).withSched (s.sched.leave w op) := by
  have hseat := k.seat w
  rw [hpc] at hseat
  obtain ⟨hstack, hthis, -⟩ := hseat
  have hsched := k.scheduler w fun h => by cases hpc.symm.trans h
  have hleave : s.sched.leave w op = s.sched.modify f op fun t => t.goto w (.inside .leaving kd f) := by
    simp only [Workers.State.leave, hpc]
  rw [hleave]
  have hget : s.getThis w = (.task f, s) := by simp only [State.getThis, hthis]
  cases ends <;>
    simp [State.leave, hstack, hframe, hpc, hget, State.yielded, State.setThis, State.setLocal, State.setFrame,
      hsched]

/-- A fiber is before the `swapcontext` of its `swapOut`. -/
theorem Coherent.yield_step {kd : Kind} {ends : Bool} (k : Coherent s) (u : Sole s.sched)
    (hpc : s.sched.pc w = .inside .running kd f) (hr : s.sched.fiber f = some r)
    (hsaved : r'.saved = r.saved) (hends : ends = true → r'.ended = true)
    (ht : t.worker = Function.update s.sched.worker w { s.sched.worker w with pc := .inside .leaving kd f })
    (hfiber : t.fiber = Function.update s.sched.fiber f (some r')) :
    Coherent { s.yielded w f ends with sched := t } := by
  have hself : t.pc w = .inside .leaving kd f := pc_update_self ht
  have hout : s.sched.pc w ≠ .out := fun h => by cases hpc.symm.trans h
  have hseat := k.seat w
  rw [hpc] at hseat
  obtain ⟨hstack, -, hctx, -, hunsaved⟩ := hseat
  have hlocal : (s.yielded w f ends).locals w = { s.locals w with fiber := some (s.loop w) } :=
    Function.update_self ..
  have hframe : ∀ x, x ≠ .task f → (s.yielded w f ends).frame x = s.frame x := fun x hx =>
    Function.update_of_ne hx ..
  have htask : (s.yielded w f ends).frame (.task f) = if ends then .last (.task f) else .swapOut (.task f) (.task f) :=
    Function.update_self ..
  refine k.move (w := w) rfl k.fault (fun w' => hframe (.main w') fun h => by cases h) (fun w' hne => pc_update_of_ne ht hne)
    (fun w' _ => rfl) (fun w' hne => Function.update_of_ne hne ..) (fun w' x _ hx => ⟨rfl, hframe x (owns_ne_task hx f)⟩)
    (fun f' => ?_) ?_ (fun _ => ?_) (fun hw => ?_)
  · by_cases hf : f' = f
    · subst hf
      refine .anew (fun w' st kd hne => alone_inside u hpc w' st kd hne) fun x hx => ?_
      have hx : t.fiber f' = some x := hx
      rw [hfiber, Function.update_self] at hx
      cases hx
      have hnot : r'.saved ≠ true := by
        rw [hsaved, hunsaved r hr]
        exact Bool.false_ne_true
      refine ⟨fun h => absurd h hnot, fun h => absurd h hnot, fun x hx => ?_⟩
      have hx : (s.yielded w f' ends).frame (.task f') = .last x := hx
      rw [htask] at hx
      cases ends with
      | true => exact hends rfl
      | false => cases hx
    · refine .same ?_ (hframe _ fun h => hf (Ref.task.inj h)) rfl
      show t.fiber f' = _
      rw [hfiber, Function.update_of_ne hf]
  · show Seat _ w (t.pc w)
    rw [hself]
    refine ⟨hstack, by show ((s.yielded w f ends).locals w).fiber = _; rw [hlocal]; rfl, hctx, ?_⟩
    show (s.yielded w f ends).frame _ = _ ∨ (s.yielded w f ends).frame _ = _
    rw [htask]
    cases ends with
    | true => exact .inr rfl
    | false => exact .inl rfl
  · show ((s.yielded w f ends).locals w).schedulerFiber = _
    rw [hlocal]
    exact k.scheduler w hout
  · obtain ⟨h₁, h₂, -⟩ := k.rooted w hw
    have hmain := task_ne_main hstack
    obtain ⟨hroot, hctx'⟩ := k.phase_home hw hout hmain
    refine ⟨?_, ?_, .inside (fun h => by cases hself.symm.trans h) hmain ?_ hctx'⟩
    · show ((s.yielded w f ends).locals w).threadFiber = _
      rw [hlocal]
      exact h₁
    · show ((s.yielded w f ends).locals w).schedulerFiber = _
      rw [hlocal]
      exact h₂
    · exact (hframe _ fun h => by cases h).trans hroot

omit [DecidableEq φ] in
/-- Who executes the stack of a fiber. -/
theorem Coherent.stack_task (k : Coherent s) (h : s.stack w = .task f) :
    ∃ kd, s.sched.pc w = .inside .running kd f ∨ s.sched.pc w = .inside .leaving kd f := by
  have hhome : ¬ s.stack w = s.loop w := fun hl => loop_ne_task s w f (hl.symm.trans h)
  have hseat := k.seat w
  rcases hpc : s.sched.pc w with _ | _ | ft | ⟨st, kd, f'⟩ | _ <;> rw [hpc] at hseat
  · by_cases hw : s.rootThread = some w
    · cases (k.rooted w hw).phase with
      | constructed _ hst => cases hst.symm.trans h
      | called _ hst => cases hst.symm.trans h
      | inside hout => exact absurd hpc hout
      | returned hex => cases hpc.symm.trans hex
    · cases (hseat hw).1.symm.trans h
  · exact absurd hseat.1 hhome
  · exact absurd hseat.1 hhome
  · cases st with
    | running =>
      cases hseat.1.symm.trans h
      exact ⟨kd, .inl rfl⟩
    | leaving =>
      cases hseat.1.symm.trans h
      exact ⟨kd, .inr rfl⟩
    | entry | entered | back | check | hold => exact absurd hseat.1 hhome
  · obtain hseat | ⟨-, hst⟩ := hseat
    · exact absurd hseat.1 hhome
    · cases hst.symm.trans h

/-- `MainFunc` begins. -/
theorem Coherent.begin_step {kd : Kind} (k : Coherent s) (u : Sole s.sched)
    (hpc : s.sched.pc w = .inside .running kd f) :
    Coherent (s.setFrame (.task f) (.callback (.task f))) := by
  have hseat := k.seat w
  rw [hpc] at hseat
  obtain ⟨hstack, hthis, hctx, -, hunsaved⟩ := hseat
  have hframe : ∀ x, x ≠ .task f → (s.setFrame (.task f) (.callback (.task f))).frame x = s.frame x := fun x hx =>
    Function.update_of_ne hx ..
  have htask : (s.setFrame (.task f) (.callback (.task f))).frame (.task f) = .callback (.task f) :=
    Function.update_self ..
  refine k.move (w := w) rfl k.fault (fun w' => hframe (.main w') fun h => by cases h) (fun _ _ => rfl) (fun _ _ => rfl)
    (fun _ _ => rfl) (fun w' x _ hx => ⟨rfl, hframe x (owns_ne_task hx f)⟩) (fun f' => ?_) ?_ (k.scheduler w) (fun hw => ?_)
  · by_cases hf : f' = f
    · subst hf
      refine .anew (fun w' st kd hne => alone_inside u hpc w' st kd hne) fun r hr => ?_
      have hnot : r.saved ≠ true := by
        rw [hunsaved r hr]
        exact Bool.false_ne_true
      refine ⟨fun h => absurd h hnot, fun h => absurd h hnot, fun x hx => ?_⟩
      cases htask.symm.trans hx
    · exact .same rfl (hframe _ fun h => hf (Ref.task.inj h)) rfl
  · show Seat _ w (s.sched.pc w)
    rw [hpc]
    exact ⟨hstack, hthis, hctx, .inr htask, hunsaved⟩
  · obtain ⟨h₁, h₂, h₃⟩ := k.rooted w hw
    exact ⟨h₁, h₂, h₃.congr rfl rfl rfl (hframe _ fun h => by cases h) rfl rfl⟩

/-! ### Threads and fibers that come in -/

omit [DecidableEq φ] in
/-- No thread moves. -/
theorem Coherent.still {t : State ω φ κ} (k : Coherent s) (hroot : t.rootThread = s.rootThread)
    (hfault : t.fault = none) (hstack : t.stack = s.stack) (hlocals : t.locals = s.locals)
    (hown : ∀ w x, s.Owns w x → t.ctx x = s.ctx x ∧ t.frame x = s.frame x)
    (hw : t.sched.worker = s.sched.worker)
    (hfiber : ∀ f, (t.sched.fiber f = s.sched.fiber f ∧ t.frame (.task f) = s.frame (.task f) ∧
        t.ctx (.task f) = s.ctx (.task f)) ∨
      (∀ w st kd, s.sched.pc w ≠ .inside st kd f) ∧ ∀ r, t.sched.fiber f = some r → Kept t f r) : Coherent t := by
  have hpc : ∀ w, t.sched.pc w = s.sched.pc w := fun w => pc_congr (congrFun hw w)
  refine ⟨hfault, fun w => ((hown w _ (.inl rfl)).2).trans (k.main w), fun w => ?_, fun w hout => ?_, fun w hwr => ?_,
    fun f r hr => ?_⟩
  · rw [hpc]
    refine (k.seat w).congr (by rw [hroot]) (by rw [hstack]) (by rw [hlocals]) (hown w _ (owns_loop s w)).1 ?_
    intro st kd f hin
    obtain ⟨hrec, hframe, -⟩ | ⟨halone, -⟩ := hfiber f
    · exact ⟨hframe, hrec⟩
    · exact absurd hin (halone w st kd)
  · rw [loop_congr (t := t) (s := s) (by rw [hroot]), hlocals]
    exact k.scheduler w (hpc w ▸ hout)
  · obtain ⟨h₁, h₂, h₃⟩ := k.rooted w (hroot ▸ hwr)
    refine ⟨by rw [hlocals]; exact h₁, by rw [hlocals]; exact h₂, ?_⟩
    obtain ⟨hctx, hframe⟩ := hown w .root (.inr ⟨rfl, hroot ▸ hwr⟩)
    exact h₃.congr (hpc w) (by rw [hstack]) (by rw [hlocals]) hframe hctx (hown w _ (.inl rfl)).1
  · obtain ⟨hrec, hframe, hctx⟩ | ⟨-, hkept⟩ := hfiber f
    · obtain ⟨h₁, h₂, h₃⟩ := k.kept f r (hrec ▸ hr)
      exact ⟨by rw [hctx]; exact h₁, by rw [hframe]; exact h₂, by rw [hframe]; exact h₃⟩
    · exact hkept r hr

omit [DecidableEq φ] in
theorem Coherent.schedule_step (k : Coherent s) (nodes : List (FiberAndThread φ κ)) [DecidableEq φ] :
    Coherent { s with sched := s.sched.schedule nodes } :=
  k.still rfl k.fault rfl rfl (fun _ _ _ => ⟨rfl, rfl⟩) rfl fun _ => .inl ⟨rfl, rfl, rfl⟩

/-- A fiber is made at an address where none is. -/
theorem Coherent.create_step (k : Coherent s) (o : Owned s.sched) (hf : s.sched.fiber f = none)
    (ht : t.worker = s.sched.worker) (hfiber : t.fiber = Function.update s.sched.fiber f (some r)) :
    Coherent { s.makecontext (.task f) with sched := t } := by
  refine k.still rfl k.fault rfl rfl (fun w x hx => ?_) ht fun f' => ?_
  · have hne := owns_ne_task hx f
    exact ⟨Function.update_of_ne hne .., Function.update_of_ne hne ..⟩
  · by_cases hff : f' = f
    · subst hff
      refine .inr ⟨nobody_inside o hf, fun r' _ => ?_⟩
      obtain ⟨h₁, h₂, h₃⟩ := kept_makecontext s f' r'
      exact ⟨h₁, h₂, h₃⟩
    · have hne : (.task f' : Ref ω φ) ≠ .task f := fun h => hff (Ref.task.inj h)
      refine .inl ⟨?_, Function.update_of_ne hne .., Function.update_of_ne hne ..⟩
      show t.fiber f' = _
      rw [hfiber, Function.update_of_ne hff]

/-- The pointers of a thread at the start of `run`. -/
structure Enters (s m : State ω φ κ) (w : ω) : Prop where
  fault : m.fault = s.fault
  rootThread : m.rootThread = s.rootThread
  stack : m.stack = s.stack
  ctx : m.ctx = s.ctx
  locals : ∀ w', w' ≠ w → m.locals w' = s.locals w'
  frame : ∀ x, (x = .root → s.rootThread ≠ some w) → m.frame x = s.frame x
  home : s.stack w = s.loop w ∧ (m.locals w).fiber = some (s.loop w)
  scheduler : (m.locals w).schedulerFiber = some (s.loop w)
  rooted : s.rootThread = some w → (m.locals w).threadFiber = some (.main w) ∧
    m.frame .root = .callback .root ∧ s.ctx (.main w) = some (.main w)

theorem enter_spec {m : State ω φ κ} (k : Coherent s) (hout : s.sched.pc w = .out) (hm : s.enter w = some m) :
    Enters s m w := by
  by_cases hw : s.rootThread = some w
  · obtain ⟨h₁, h₂, hphase⟩ := k.rooted w hw
    have hloop : s.loop w = .root := by rw [State.loop, if_pos hw]
    cases hphase with
    | constructed _ hst => simp [State.enter, hw, hst] at hm
    | inside hin => exact absurd hout hin
    | returned hex => cases hout.symm.trans hex
    | called _ hst hframe hthis hctx =>
      simp only [State.enter, hw, if_true, hst, hframe, State.getThis, hthis, Option.some.injEq] at hm
      subst hm
      refine ⟨rfl, rfl, rfl, rfl, fun _ _ => rfl, fun x hx => ?_, ⟨hst.trans hloop.symm, by rw [hloop]; exact hthis⟩,
        by rw [hloop]; exact h₂, fun _ => ⟨h₁, by simp [State.setFrame], hctx⟩⟩
      have hne : x ≠ .root := fun h => hx h hw
      exact Function.update_of_ne hne ..
  · have hseat := k.seat w
    rw [hout] at hseat
    obtain ⟨hst, hthis⟩ := hseat hw
    have hloop : s.loop w = .main w := by rw [State.loop, if_neg hw]
    simp only [State.enter, if_neg hw, State.getThis, hthis, Option.some.injEq] at hm
    subst hm
    refine ⟨rfl, rfl, rfl, rfl, fun w' hne => ?_, fun _ _ => rfl, ⟨hst.trans hloop.symm, ?_⟩, ?_,
      fun h => absurd h hw⟩
    · simp [State.setLocal, hne]
    · simp [State.setLocal, hloop]
    · simp [State.setLocal, hloop]

/-- A thread enters `run`, and makes its `idle_fiber`. -/
theorem Coherent.enter_step {m : State ω φ κ} (k : Coherent s) (o : Owned s.sched) (hf : s.sched.fiber f = none)
    (hm : Enters s m w) (ht : t.worker = Function.update s.sched.worker w { pc := .top, idleFiber := some f })
    (hfiber : t.fiber = Function.update s.sched.fiber f (some r)) :
    Coherent { m.makecontext (.task f) with sched := t } := by
  have hself : t.pc w = .top := pc_update_self ht
  have hctx : ∀ x, x ≠ .task f → (m.makecontext (.task f)).ctx x = s.ctx x := fun x hx =>
    (Function.update_of_ne hx ..).trans (by rw [hm.ctx])
  have hframe : ∀ x, x ≠ .task f → (m.makecontext (.task f)).frame x = m.frame x := fun x hx =>
    Function.update_of_ne hx ..
  refine k.move (w := w) hm.rootThread (hm.fault.trans k.fault) (fun w' => ?_)
    (fun w' hne => pc_update_of_ne ht hne) (fun w' _ => congrFun hm.stack w') hm.locals (fun w' x hne hx => ?_)
    (fun f' => ?_) ?_ (fun _ => hm.scheduler) (fun hw => ?_)
  · exact (hframe (.main w') (owns_ne_task (s := s) (.inl rfl) f)).trans (hm.frame _ fun h => by cases h)
  · have hxf := owns_ne_task hx f
    refine ⟨hctx x hxf, (hframe x hxf).trans (hm.frame x ?_)⟩
    rintro rfl hw
    exact hne (owns_unique hx (.inr ⟨rfl, hw⟩))
  · by_cases hff : f' = f
    · subst hff
      refine .anew (fun w' st kd _ => nobody_inside o hf w' st kd) fun r' _ => ?_
      obtain ⟨h₁, h₂, h₃⟩ := kept_makecontext m f' r'
      exact ⟨h₁, h₂, h₃⟩
    · have hne : (.task f' : Ref ω φ) ≠ .task f := fun h => hff (Ref.task.inj h)
      refine .same ?_ ((hframe _ hne).trans (hm.frame _ fun h => by cases h)) (hctx _ hne)
      show t.fiber f' = _
      rw [hfiber, Function.update_of_ne hff]
  · show Seat _ w (t.pc w)
    have hloop : State.loop { m.makecontext (.task f) with sched := t } w = s.loop w :=
      loop_congr (by rw [← hm.rootThread]; exact Iff.rfl)
    rw [hself]
    refine ⟨?_, ?_⟩
    · rw [hloop, ← hm.home.1]
      exact congrFun hm.stack w
    · rw [hloop]
      exact hm.home.2
  · obtain ⟨hthread, hroot, hmain⟩ := hm.rooted hw
    have hloop : s.loop w = .root := by rw [State.loop, if_pos hw]
    refine ⟨hthread, hm.scheduler.trans (by rw [hloop]), .inside (fun h => by cases hself.symm.trans h) ?_ ?_ ?_⟩
    · show m.stack w ≠ _
      rw [hm.stack]
      exact home_ne_main hw hm.home.1
    · exact (hframe .root fun h => by cases h).trans hroot
    · exact (hctx (.main w) fun h => by cases h).trans hmain

/-! ### The caller's thread -/

/-- The constructor with `use_caller`. -/
theorem Coherent.construct_step {m : State ω φ κ} (k : Coherent s) (hnone : s.rootThread = none)
    (hout : s.sched.pc w = .out) (hsched : m.sched = s.sched) (hfault : m.fault = s.fault)
    (hroot : m.rootThread = some w) (hstack : m.stack = s.stack)
    (hlocals : m.locals = Function.update s.locals w ⟨some (.main w), some (.main w), some .root⟩)
    (hctx : m.ctx = Function.update s.ctx .root (some .root))
    (hframe : m.frame = Function.update s.frame .root .start) : Coherent m := by
  have hother : ∀ w', w' ≠ w → (m.rootThread = some w' ↔ s.rootThread = some w') := fun w' hne => by
    rw [hroot, hnone]
    exact ⟨fun h => absurd (Option.some.inj h).symm hne, fun h => by cases h⟩
  have hlocal : ∀ w', w' ≠ w → m.locals w' = s.locals w' := fun w' hne => by
    rw [hlocals, Function.update_of_ne hne]
  have hkeep : ∀ x, x ≠ .root → m.ctx x = s.ctx x ∧ m.frame x = s.frame x := fun x hx => by
    rw [hctx, hframe, Function.update_of_ne hx, Function.update_of_ne hx]
    exact ⟨rfl, rfl⟩
  have hself : m.locals w = ⟨some (.main w), some (.main w), some .root⟩ := by rw [hlocals, Function.update_self]
  refine ⟨hfault.trans k.fault, fun w' => ?_, fun w' => ?_, fun w' hin => ?_, fun w' hw' => ?_, fun f r hr => ?_⟩
  · exact (hkeep (.main w') fun h => by cases h).2.trans (k.main w')
  · rw [hsched]
    by_cases hw : w' = w
    · subst hw
      rw [hout]
      exact fun h => absurd hroot h
    · have hloop : s.loop w' ≠ .root := by
        rw [State.loop, if_neg fun h => by cases hnone.symm.trans h]
        intro h
        cases h
      refine (k.seat w').congr (hother w' hw) (congrFun hstack w') (hlocal w' hw) (hkeep _ hloop).1 fun st kd f _ => ?_
      exact ⟨(hkeep (.task f) fun h => by cases h).2, by rw [hsched]⟩
  · rw [hsched] at hin
    have hw : w' ≠ w := by
      rintro rfl
      exact hin hout
    rw [loop_congr (hother w' hw), hlocal w' hw]
    exact k.scheduler w' hin
  · obtain rfl : w = w' := Option.some.inj (hroot.symm.trans hw')
    have hseat := k.seat w
    rw [hout] at hseat
    refine ⟨by rw [hself], by rw [hself], .constructed (by rw [hsched]; exact hout) ?_ ?_ ?_⟩
    · rw [hstack]
      exact (hseat fun h => by cases hnone.symm.trans h).1
    · rw [hframe, Function.update_self]
    · rw [hctx, Function.update_self]
  · rw [hsched] at hr
    obtain ⟨hc, hf⟩ := hkeep (.task f) fun h => by cases h
    obtain ⟨h₁, h₂, h₃⟩ := k.kept f r hr
    exact ⟨by rw [hc]; exact h₁, by rw [hf]; exact h₂, by rw [hf]; exact h₃⟩

omit [DecidableEq φ] in
/-- The caller's thread moves between its main fiber and `m_rootFiber`. -/
theorem Coherent.caller {m : State ω φ κ} (k : Coherent s) (hw : s.rootThread = some w) (hsched : m.sched = s.sched)
    (hfault : m.fault = s.fault) (hroot : m.rootThread = s.rootThread)
    (hstack : ∀ w', w' ≠ w → m.stack w' = s.stack w') (hlocals : ∀ w', w' ≠ w → m.locals w' = s.locals w')
    (hkeep : ∀ x, x ≠ .root → x ≠ .main w → m.ctx x = s.ctx x) (hframe : ∀ x, x ≠ .root → m.frame x = s.frame x)
    (hseat : Seat m w (s.sched.pc w)) (hscheduler : (m.locals w).schedulerFiber = some .root)
    (hthread : (m.locals w).threadFiber = some (.main w)) (hphase : Phase m w) : Coherent m := by
  have hloop : s.loop w = .root := by rw [State.loop, if_pos hw]
  refine k.move (w := w) hroot (hfault.trans k.fault) (fun w' => hframe _ fun h => by cases h)
    (fun w' _ => by rw [hsched]) hstack hlocals (fun w' x hne hx => ?_) (fun f => ?_) (by rw [hsched]; exact hseat)
    (fun _ => by rw [hloop]; exact hscheduler) (fun _ => ⟨hthread, hscheduler, hphase⟩)
  · have hxr : x ≠ .root := by
      rintro rfl
      exact hne (owns_unique hx (.inr ⟨rfl, hw⟩))
    refine ⟨hkeep x hxr ?_, hframe x hxr⟩
    rintro rfl
    exact hne (owns_unique hx (.inl rfl))
  · exact .same (by rw [hsched]) (hframe _ fun h => by cases h)
      (hkeep _ (fun h => by cases h) fun h => by cases h)

/-! ### One step -/

omit [DecidableEq ω] [DecidableEq φ] in
theorem withSched_eq {m t : State ω φ κ} {x : Option (Workers.State ω φ κ)} (h : m.withSched x = some t) :
    ∃ t', x = some t' ∧ t = { m with sched := t' } := by
  obtain ⟨t', hx, rfl⟩ := Option.map_eq_some_iff.mp h
  exact ⟨t', hx, rfl⟩

/-- The two are one step, and the contexts after it are coherent. -/
def Lockstep (x : Option (State ω φ κ)) (y : Option (Workers.State ω φ κ)) : Prop :=
  ∃ m : State ω φ κ, x = m.withSched y ∧ ∀ t, y = some t → Coherent { m with sched := t }

omit [DecidableEq φ] in
theorem lockstep_none {x : Option (State ω φ κ)} {y : Option (Workers.State ω φ κ)} (s : State ω φ κ)
    (hx : x = none) (hy : y = none) : Lockstep x y :=
  ⟨s, by rw [hx, hy]; rfl, fun t ht => by cases hy.symm.trans ht⟩

/-- A thread that is not in `run` itself does not take the next step of `run`. -/
theorem work_stuck (h : s.sched.work thread w g = none) (hpc : ∀ st kd f, s.sched.pc w = .inside st kd f → st = .running) :
    s.work thread w g = none := by
  rcases hp : s.sched.pc w with _ | _ | ft | ⟨st, kd, f⟩ | _
  case inside =>
    obtain rfl := hpc st kd f hp
    simp only [State.work, hp]
    split
    · rfl
    · rw [h]
      rfl
  all_goals
    simp only [State.work, hp]
    split
    · rfl
    · rw [h]
      rfl

/-- A step of `run` and the step of `Workers` are one. -/
theorem work_spec (k : Coherent s) (o : Owned s.sched) (u : Sole s.sched) (thread : ω → Int) (w : ω) (g : φ) :
    Lockstep (s.work thread w g) (s.sched.work thread w g) := by
  by_cases hq : quiet (s.sched.pc w) = true
  · exact ⟨_, work_quiet k hq, fun t ht => k.quiet_step o u hq (work_effect ht)⟩
  · rcases hpc : s.sched.pc w with _ | _ | ft | ⟨st, kd, f⟩ | _
    · have hnone : s.sched.work thread w g = none := by simp only [Workers.State.work, hpc]
      exact lockstep_none s (work_stuck hnone fun _ _ _ h => by cases hpc.symm.trans h) hnone
    · exact absurd (by rw [hpc]; rfl) hq
    · exact absurd (by rw [hpc]; rfl) hq
    · cases st with
      | entry =>
        refine ⟨_, work_entry k hpc, fun t ht => ?_⟩
        simp only [Workers.State.work, hpc] at ht
        obtain ⟨r, hr, ⟨r', ho, rfl⟩ | ⟨e, ho, rfl⟩⟩ := modify_effect ht
        · simp only [Fiber.swapIn] at ho
          split at ho <;> cases ho
          exact k.entry_step u hpc hr rfl rfl
        · simp only [Fiber.swapIn] at ho
          split at ho <;> cases ho
          exact absurd ‹_› (u.stands_here hpc hr).2.1
      | entered =>
        obtain ⟨m, hm, hwork⟩ := work_entered thread (g := g) k u hpc
        refine ⟨m, hwork, fun t ht => ?_⟩
        simp only [Workers.State.work, hpc] at ht
        obtain ⟨r, hr, ⟨r', ho, rfl⟩ | ⟨e, ho, rfl⟩⟩ := modify_effect ht
        · simp only [Fiber.switchTo] at ho
          split at ho <;> cases ho
          exact k.entered_step u hpc hm rfl rfl
        · simp only [Fiber.switchTo] at ho
          split at ho <;> cases ho
          exact absurd (u.stands_here hpc hr).1 ‹_›
      | leaving =>
        refine ⟨_, work_leaving k hpc, fun t ht => ?_⟩
        simp only [Workers.State.work, hpc] at ht
        obtain ⟨r, hr, ⟨r', ho, rfl⟩ | ⟨e, ho, rfl⟩⟩ := modify_effect ht
        · cases ho
          exact k.leaving_step u hpc hr rfl rfl
        · cases ho
      | running =>
        have hnone : s.sched.work thread w g = none := by simp only [Workers.State.work, hpc]
        refine lockstep_none s (work_stuck hnone fun st kd' f' h => ?_) hnone
        cases hpc.symm.trans h
        rfl
      | back | check | hold => exact absurd (by rw [hpc]; rfl) hq
    · have hnone : s.sched.work thread w g = none := by simp only [Workers.State.work, hpc]
      exact lockstep_none s (work_stuck hnone fun _ _ _ h => by cases hpc.symm.trans h) hnone

/-- A yield in the callback of a fiber, and its end. -/
theorem leave_spec {kd : Kind} {ends : Bool} {op : Fiber κ → Except Workers.Fault (Fiber κ)} (k : Coherent s)
    (u : Sole s.sched) (hpc : s.sched.pc w = .inside .running kd f)
    (hframe : s.frame (.task f) = .callback (.task f))
    (hop : ∀ r, r.state = .exec → ∃ r', op r = .ok r' ∧ r'.saved = r.saved ∧ (ends = true → r'.ended = true)) :
    Lockstep (s.leave w ends op) (s.sched.leave w op) := by
  refine ⟨_, leave_eq k hpc hframe, fun t ht => ?_⟩
  simp only [Workers.State.leave, hpc] at ht
  obtain ⟨r, hr, h⟩ := modify_effect ht
  obtain ⟨r', hr', hsaved, hends⟩ := hop r (u.stands_here hpc hr)
  obtain ⟨x, ho, rfl⟩ | ⟨e, ho, rfl⟩ := h
  · cases hr'.symm.trans ho
    exact k.yield_step u hpc hr hsaved hends rfl rfl
  · cases hr'.symm.trans ho

/-- Where the contexts are ready for a step of `Workers`: the callback that yields has begun, and
the caller enters `run` from `call`. -/
def Ready (s : State ω φ κ) : Workers.Act ω φ κ → Prop
  | .enter w _ => s.rootThread = some w → s.stack w = .root
  | .yieldToHold w | .yieldToReady w | .finish w _ =>
    ∀ kd f, s.sched.pc w = .inside .running kd f → s.frame (.task f) = .callback (.task f)
  | _ => True

/-- A callback that yields has begun. -/
theorem leave_ready {ends : Bool} {op : Fiber κ → Except Workers.Fault (Fiber κ)} {m : State ω φ κ} (k : Coherent s)
    (h : s.leave w ends op = some m) : ∀ kd f, s.sched.pc w = .inside .running kd f →
      s.frame (.task f) = .callback (.task f) := by
  intro kd f hpc
  have hseat := k.seat w
  rw [hpc] at hseat
  obtain ⟨hstack, -, -, hframe, -⟩ := hseat
  refine hframe.resolve_left fun hstart => ?_
  simp [State.leave, hstack, hstart] at h

theorem ready_of_follow {m : State ω φ κ} (k : Coherent s) {b : Workers.Act ω φ κ}
    (h : s.follow thread b = some m) : Ready s b := by
  cases b with
  | enter w i =>
    intro hw
    obtain ⟨m', hm, -⟩ := Option.bind_eq_some_iff.mp h
    simp only [State.enter, hw, if_true] at hm
    split at hm
    · assumption
    · cases hm
  | yieldToHold w => exact leave_ready k (show s.leave w false (·.yieldToHold) = some m from h)
  | yieldToReady w => exact leave_ready k (show s.leave w false (·.yieldToReady) = some m from h)
  | finish w threw => exact leave_ready k (Option.ite_none_right_eq_some.mp h).2
  | create f cb => trivial
  | schedule nodes => trivial
  | work w g => trivial

/-- A yield, whether or not the worker is at one. -/
theorem leave_lockstep (ends : Bool) {op : Fiber κ → Except Workers.Fault (Fiber κ)} (k : Coherent s)
    (u : Sole s.sched) (hready : ∀ kd f, s.sched.pc w = .inside .running kd f → s.frame (.task f) = .callback (.task f))
    (hop : ∀ r, r.state = .exec → ∃ r', op r = .ok r' ∧ r'.saved = r.saved ∧ (ends = true → r'.ended = true)) :
    Lockstep (s.leave w ends op) (s.sched.leave w op) := by
  by_cases hrun : ∃ kd f, s.sched.pc w = .inside .running kd f
  · obtain ⟨kd, f, hpc⟩ := hrun
    exact leave_spec k u hpc (hready kd f hpc) hop
  · refine lockstep_none s ?_ ?_
    · unfold State.leave
      split
      · rename_i hpc
        exact absurd ⟨_, _, hpc⟩ hrun
      · rfl
    · unfold Workers.State.leave
      split
      · rename_i hpc
        exact absurd ⟨_, _, hpc⟩ hrun
      · rfl

theorem follow_lockstep (thread : ω → Int) (k : Coherent s) (o : Owned s.sched) (u : Sole s.sched) {b : Workers.Act ω φ κ}
    (hready : Ready s b) : Lockstep (s.follow thread b) (Workers.step thread s.sched b) := by
  cases b with
  | enter w i =>
    by_cases hout : s.sched.pc w = .out ∧ s.sched.fiber i = none
    · have hstep : Workers.step thread s.sched (.enter w i) = some { s.sched with
          fiber := Function.update s.sched.fiber i (some { cb := none, origin := .idle })
          worker := Function.update s.sched.worker w { pc := .top, idleFiber := some i } } := by
        simp only [Workers.step, u.fault, hout.1, hout.2]
      obtain ⟨m, hm⟩ : ∃ m, s.enter w = some m := by
        by_cases hw : s.rootThread = some w
        · have hst := hready hw
          cases (k.rooted w hw).phase with
          | constructed _ hst' => cases hst.symm.trans hst'
          | inside hin => exact absurd hout.1 hin
          | returned hex => cases hout.1.symm.trans hex
          | called _ _ hframe =>
            simp only [State.enter, hw, if_true, hst, hframe]
            exact ⟨_, rfl⟩
        · simp only [State.enter, if_neg hw]
          exact ⟨_, rfl⟩
      refine ⟨m.makecontext (.task i), by simp only [State.follow, hm, Option.bind_some], fun t ht => ?_⟩
      cases hstep.symm.trans ht
      exact k.enter_step o hout.2 (enter_spec k hout.1 hm) rfl rfl
    · have hnone : Workers.step thread s.sched (.enter w i) = none := by
        simp only [Workers.step]
        split
        · rename_i hpc hi
          exact absurd ⟨hpc, hi⟩ hout
        · rfl
      refine lockstep_none s ?_ hnone
      rw [State.follow, hnone]
      cases s.enter w <;> rfl
  | create f cb =>
    refine ⟨_, rfl, fun t ht => ?_⟩
    simp only [Workers.step] at ht
    split at ht
    · rename_i hf
      cases ht
      exact k.create_step o hf rfl rfl
    · cases ht
  | schedule nodes =>
    refine ⟨_, rfl, fun t ht => ?_⟩
    obtain ⟨-, ht⟩ := Option.ite_none_right_eq_some.mp ht
    cases ht
    exact k.schedule_step nodes
  | work w g =>
    rw [Workers.step, if_pos u.fault]
    exact work_spec k o u thread w g
  | yieldToHold w =>
    rw [Workers.step, if_pos u.fault]
    refine leave_lockstep false k u hready fun r hexec => ⟨r, ?_, rfl, fun h => by cases h⟩
    simp [Fiber.yieldToHold, hexec]
  | yieldToReady w =>
    rw [Workers.step, if_pos u.fault]
    refine leave_lockstep false k u hready fun r hexec => ⟨{ r with state := .ready }, ?_, rfl, fun h => by cases h⟩
    simp [Fiber.yieldToReady, hexec]
  | finish w threw =>
    by_cases hthrew : threw → (s.sched.pc w).fiber.all s.sched.shared
    · rw [Workers.step, if_pos ⟨u.fault, hthrew⟩]
      rw [State.follow, if_pos hthrew]
      refine leave_lockstep true k u hready fun r _ => ?_
      cases threw with
      | false => exact ⟨_, rfl, rfl, fun _ => by simp [Fiber.ended]⟩
      | true => exact ⟨_, rfl, rfl, fun _ => by simp [Fiber.ended]⟩
    · rw [Workers.step, if_neg fun h => hthrew h.2]
      rw [State.follow, if_neg hthrew]
      exact lockstep_none s rfl rfl

theorem mainFunc_eq {kd : Kind} (k : Coherent s) (hpc : s.sched.pc w = .inside .running kd f)
    (hstart : s.frame (.task f) = .start) : s.mainFunc w = some (s.setFrame (.task f) (.callback (.task f))) := by
  have hseat := k.seat w
  rw [hpc] at hseat
  obtain ⟨hstack, hthis, -⟩ := hseat
  have hget : s.getThis w = (.task f, s) := by simp only [State.getThis, hthis]
  simp only [State.mainFunc, hstack, hstart, hget]

/-- `MainFunc` begins on a thread that has switched to the fiber. -/
theorem mainFunc_spec {m : State ω φ κ} (k : Coherent s) (u : Sole s.sched) (h : s.mainFunc w = some m) :
    m.sched = s.sched ∧ Coherent m := by
  have hat : ∃ f, s.stack w = .task f ∧ s.frame (.task f) = .start := by
    unfold State.mainFunc at h
    split at h
    · rename_i f hstack hstart
      exact ⟨f, hstack, hstack ▸ hstart⟩
    · cases h
  obtain ⟨f, hstack, hstart⟩ := hat
  obtain ⟨kd, hpc | hpc⟩ := k.stack_task hstack
  · cases (mainFunc_eq k hpc hstart).symm.trans h
    exact ⟨rfl, k.begin_step u hpc⟩
  · have hseat := k.seat w
    rw [hpc] at hseat
    rcases hseat.2.2.2 with hframe | hframe
    · cases hstart.symm.trans hframe
    · cases hstart.symm.trans hframe

theorem construct_spec {m : State ω φ κ} (k : Coherent s) (h : s.construct w = some m) :
    m.sched = s.sched ∧ Coherent m := by
  unfold State.construct at h
  split at h
  · rename_i hnone hout
    have hseat := k.seat w
    rw [hout] at hseat
    obtain ⟨-, hthis⟩ := hseat fun h => by cases hnone.symm.trans h
    simp only [State.getThis, hthis, Option.some.injEq] at h
    subst h
    exact ⟨rfl, k.construct_step hnone hout rfl rfl rfl rfl
      (by simp [State.makecontext, State.setFrame, State.setLocal]) rfl rfl⟩
  · cases h

theorem resume_start {x : Ref ω φ} (hstack : s.stack w = x) (hframe : s.frame x = .start) : s.resume w = .ok s := by
  simp only [State.resume, hstack, hframe]

/-- The contexts after `m_rootFiber->call()`. -/
def State.called (s : State ω φ κ) (w : ω) : State ω φ κ :=
  { s.setThis w (some .root) with
    ctx := Function.update (Function.update s.ctx (.main w) (some (s.stack w))) .root none
    stack := Function.update s.stack w .root }

theorem call_eq (k : Coherent s) (hw : s.rootThread = some w) (hstack : s.stack w = .main w)
    (hframe : s.frame .root = .start) (hctx : s.ctx .root = some .root) : s.call w = some (s.called w) := by
  have hthread := (k.rooted w hw).threadFiber
  have hlocal : (s.setThis w (some .root)).locals w = { s.locals w with fiber := some .root } :=
    Function.update_self ..
  have hne : (.root : Ref ω φ) ≠ .main w := fun h => by cases h
  have hswap := (swapcontext_eq (s := s.setThis w (some .root)) (w := w) hne hctx).trans
    (resume_start (Function.update_self ..) hframe)
  simp only [State.call, hstack, hframe, if_pos hw, hlocal, hthread, State.switch, hswap, Function.update_self,
    if_true]
  rfl

theorem Coherent.call_step (k : Coherent s) (hw : s.rootThread = some w) (hout : s.sched.pc w = .out)
    (hstack : s.stack w = .main w) (hframe : s.frame .root = .start) : Coherent (s.called w) := by
  have hne : (.root : Ref ω φ) ≠ .main w := fun h => by cases h
  have hlocal : (s.called w).locals w = { s.locals w with fiber := some .root } := Function.update_self ..
  have hctx : (s.called w).ctx =
      Function.update (Function.update s.ctx (.main w) (some (s.stack w))) .root none := rfl
  obtain ⟨h₁, h₂, -⟩ := k.rooted w hw
  refine k.caller hw rfl rfl rfl (fun w' hw' => Function.update_of_ne hw' ..)
    (fun w' hw' => Function.update_of_ne hw' ..) (fun x hx hx' => ?_) (fun _ _ => rfl) ?_ ?_ ?_ ?_
  · rw [hctx, Function.update_of_ne hx, Function.update_of_ne hx']
  · rw [hout]
    exact fun h => absurd hw h
  · rw [hlocal]
    exact h₂
  · rw [hlocal]
    exact h₁
  · refine .called hout (Function.update_self ..) hframe (by rw [hlocal]) ?_
    rw [hctx, Function.update_of_ne hne.symm, Function.update_self, hstack]

theorem call_spec {m : State ω φ κ} (k : Coherent s) (h : s.call w = some m) :
    m.sched = s.sched ∧ Coherent m := by
  have hat : (∃ v, s.stack w = .main v) ∧ s.frame .root = .start ∧ s.rootThread = some w := by
    unfold State.call at h
    split at h
    · rename_i v hstack hframe
      exact ⟨⟨v, hstack⟩, hframe, (Option.ite_none_right_eq_some.mp h).1⟩
    · cases h
  obtain ⟨⟨v, hstack⟩, hframe, hw⟩ := hat
  cases (k.rooted w hw).phase with
  | called _ hst => cases hstack.symm.trans hst
  | inside _ _ hfr => cases hframe.symm.trans hfr
  | returned _ _ hfr => cases hframe.symm.trans hfr
  | constructed hout hst hfr hctx =>
    cases (call_eq k hw hst hframe hctx).symm.trans h
    exact ⟨rfl, k.call_step hw hout hst hframe⟩

theorem back_spec {m : State ω φ κ} (k : Coherent s) (h : s.back w = some m) :
    m.sched = s.sched ∧ Coherent m := by
  unfold State.back at h
  split at h
  · rename_i cur hex hstack hframe
    have hseat := k.seat w
    rw [hex] at hseat
    have hw : s.rootThread = some w := by
      by_contra hw
      obtain ⟨hst, -⟩ | ⟨hw', -⟩ := hseat
      · rw [State.loop, if_neg hw] at hst
        cases hstack.symm.trans hst
      · exact hw hw'
    obtain ⟨h₁, h₂, hphase⟩ := k.rooted w hw
    rw [hstack] at hframe
    cases hphase with
    | constructed hout => cases hex.symm.trans hout
    | called hout => cases hex.symm.trans hout
    | returned _ hst => cases hstack.symm.trans hst
    | inside _ hst hfr hctx =>
      cases hframe.symm.trans hfr
      set s' := (s.setFrame .root (.last .root)).setThis w (s.locals w).threadFiber
      have hlocal : s'.locals w = { s.locals w with fiber := (s.locals w).threadFiber } := Function.update_self ..
      have hframes : s'.frame = Function.update s.frame .root (.last .root) := rfl
      have hfr : ∀ x, x ≠ .root → s'.frame x = s.frame x := fun x hx => by rw [hframes, Function.update_of_ne hx]
      have hne : (.main w : Ref ω φ) ≠ .root := fun h => by cases h
      have hswap := (swapcontext_eq (s := s') (w := w) hne hctx).trans
        (resume_start (Function.update_self ..) ((hfr _ hne).trans (k.main w)))
      simp only [hlocal, h₁, State.switch, hswap, Function.update_self, if_true, Option.some.injEq] at h
      subst h
      refine ⟨rfl, k.caller hw rfl rfl rfl (fun w' hw' => Function.update_of_ne hw' ..)
        (fun w' hw' => Function.update_of_ne hw' ..) (fun x hx hx' => ?_) hfr ?_ ?_ ?_ ?_⟩
      · show Function.update (Function.update s.ctx _ _) _ _ x = _
        rw [Function.update_of_ne hx', Function.update_of_ne hx]
      · rw [hex]
        exact .inr ⟨hw, Function.update_self ..⟩
      · show (s'.locals w).schedulerFiber = _
        rw [hlocal]
        exact h₂
      · show (s'.locals w).threadFiber = _
        rw [hlocal]
        exact h₁
      · exact .returned hex (Function.update_self ..) (by rw [hframes, Function.update_self])
  · cases h

theorem step_eq (k : Coherent s) (u : Sole s.sched) (thread : ω → Int) (a : Act ω φ κ) :
    step thread s a = match a with
      | .sched b => s.follow thread b
      | .begin w => s.mainFunc w
      | .construct w => s.construct w
      | .call w => s.call w
      | .back w => s.back w := by
  have hno : ¬ (s.fault ≠ none ∨ s.sched.fault ≠ none) := by simp [k.fault, u.fault]
  exact if_neg hno

/-- A step is one of `Workers`, or leaves what `Workers` knows. -/
theorem coherent_step {m : State ω φ κ} {a : Act ω φ κ} (k : Coherent s) (o : Owned s.sched) (u : Sole s.sched)
    (h : step thread s a = some m) : Coherent m ∧ match a.sched? with
      | some b => Workers.step thread s.sched b = some m.sched
      | none => m.sched = s.sched := by
  rw [step_eq k u] at h
  cases a with
  | sched b =>
    obtain ⟨m', hm, hcoherent⟩ := follow_lockstep thread k o u (ready_of_follow k h)
    obtain ⟨t, ht, rfl⟩ := withSched_eq (hm.symm.trans h)
    exact ⟨hcoherent t ht, ht⟩
  | begin w => exact (mainFunc_spec k u h).symm
  | construct w => exact (construct_spec k h).symm
  | call w => exact (call_spec k h).symm
  | back w => exact (back_spec k h).symm

/-- Where the contexts are ready, the step of `Workers` is taken at once. -/
theorem lift_ready {b : Workers.Act ω φ κ} (k : Coherent s) (o : Owned s.sched) (u : Sole s.sched)
    (hready : Ready s b) (h : Workers.step thread s.sched b = some t) :
    ∃ m, step thread s (.sched b) = some m ∧ m.sched = t ∧ Coherent m := by
  obtain ⟨m, hm, hcoherent⟩ := follow_lockstep thread k o u hready
  refine ⟨{ m with sched := t }, ?_, rfl, hcoherent t h⟩
  rw [step_eq k u]
  exact hm.trans (by rw [h]; rfl)

/-- A callback that has not begun begins. -/
theorem lift_begin (thread : ω → Int) (k : Coherent s) (u : Sole s.sched)
    (hnot : ¬ ∀ kd f, s.sched.pc w = .inside .running kd f → s.frame (.task f) = .callback (.task f)) :
    ∃ m, step thread s (.begin w) = some m ∧ m.sched = s.sched ∧ Coherent m ∧
      ∀ kd f, m.sched.pc w = .inside .running kd f → m.frame (.task f) = .callback (.task f) := by
  push Not at hnot
  obtain ⟨kd, f, hpc, hframe⟩ := hnot
  have hseat := k.seat w
  rw [hpc] at hseat
  have heq := mainFunc_eq k hpc (hseat.2.2.2.1.resolve_right hframe)
  refine ⟨_, (step_eq k u thread (.begin w)).trans heq, rfl, (mainFunc_spec k u heq).2, fun kd' f' hpc' => ?_⟩
  have hpc' : s.sched.pc w = .inside .running kd' f' := hpc'
  cases hpc.symm.trans hpc'
  exact Function.update_self ..

/-- The caller goes into `call`. -/
theorem lift_call (thread : ω → Int) (k : Coherent s) (u : Sole s.sched) (hw : s.rootThread = some w) (hout : s.sched.pc w = .out)
    (hstack : s.stack w ≠ .root) :
    ∃ m, step thread s (.call w) = some m ∧ m.sched = s.sched ∧ Coherent m ∧ m.stack w = .root := by
  cases (k.rooted w hw).phase with
  | called _ hst => exact absurd hst hstack
  | inside hin => exact absurd hout hin
  | returned hex => cases hout.symm.trans hex
  | constructed _ hst hframe hctx =>
    have heq := call_eq k hw hst hframe hctx
    exact ⟨_, (step_eq k u thread (.call w)).trans heq, rfl, (call_spec k heq).2, Function.update_self ..⟩

/-- A step of `Workers` is taken, after the beginning of `MainFunc` or `call` where that is due. -/
theorem lift_step {b : Workers.Act ω φ κ} (k : Coherent s) (o : Owned s.sched) (u : Sole s.sched)
    (h : Workers.step thread s.sched b = some t) :
    ∃ as m, run (step thread) s as = some m ∧ as.filterMap Act.sched? = [b] ∧ m.sched = t ∧ Coherent m := by
  by_cases hready : Ready s b
  · obtain ⟨m, hm, hsched, hcoherent⟩ := lift_ready k o u hready h
    exact ⟨[.sched b], m, run_cons.mpr ⟨m, hm, rfl⟩, rfl, hsched, hcoherent⟩
  · -- one step makes them ready
    have hfirst : ∃ a m, step thread s a = some m ∧ a.sched? = none ∧ m.sched = s.sched ∧ Coherent m ∧ Ready m b := by
      cases b with
      | enter w i =>
        simp only [Ready, Classical.not_imp] at hready
        have hout : s.sched.pc w = .out := by
          simp only [Workers.step] at h
          split at h
          · assumption
          · cases h
        obtain ⟨m, h₁, h₂, h₃, h₄⟩ := lift_call thread k u hready.1 hout hready.2
        exact ⟨.call w, m, h₁, rfl, h₂, h₃, fun _ => h₄⟩
      | yieldToHold w =>
        obtain ⟨m, h₁, h₂, h₃, h₄⟩ := lift_begin thread k u hready
        exact ⟨.begin w, m, h₁, rfl, h₂, h₃, h₄⟩
      | yieldToReady w =>
        obtain ⟨m, h₁, h₂, h₃, h₄⟩ := lift_begin thread k u hready
        exact ⟨.begin w, m, h₁, rfl, h₂, h₃, h₄⟩
      | finish w threw =>
        obtain ⟨m, h₁, h₂, h₃, h₄⟩ := lift_begin thread k u hready
        exact ⟨.begin w, m, h₁, rfl, h₂, h₃, h₄⟩
      | create f cb => exact absurd trivial hready
      | schedule nodes => exact absurd trivial hready
      | work w g => exact absurd trivial hready
    obtain ⟨a, m, ha, hnone, hsched, hcoherent, hready⟩ := hfirst
    rw [← hsched] at o u h
    obtain ⟨m', hm', hsched', hcoherent'⟩ := lift_ready hcoherent o u hready h
    refine ⟨[a, .sched b], m', run_cons.mpr ⟨m, ha, run_cons.mpr ⟨m', hm', rfl⟩⟩, ?_, hsched', hcoherent'⟩
    rw [List.filterMap_cons_none hnone]
    rfl

/-! ### Every run -/

/-- The scans take free fibers. -/
def Exclusive (thread : ω → Int) (s : State ω φ κ) : Act ω φ κ → Prop
  | .sched b => TakesFree thread s.sched b
  | _ => True

instance [Fintype ω] (thread : ω → Int) (s : State ω φ κ) : (a : Act ω φ κ) → Decidable (Exclusive thread s a)
  | .sched b => inferInstanceAs (Decidable (TakesFree thread s.sched b))
  | .begin _ | .construct _ | .call _ | .back _ => isTrue trivial

theorem coherent_reachable {thread : ω → Int} {acts : List (Act ω φ κ)}
    (hm : Meets (step thread) (Exclusive thread) start acts) (h : run (step thread) start acts = some s) :
    Coherent s ∧ Owned s.sched ∧ Sole s.sched := by
  refine run_invariant (P := fun s : State ω φ κ => Coherent s ∧ Owned s.sched ∧ Sole s.sched) (fun s a m k hg h => ?_)
    ⟨start_coherent, start_owned, start_sole⟩ hm h
  obtain ⟨k, o, u⟩ := k
  obtain ⟨hcoherent, hstep⟩ := coherent_step k o u h
  refine ⟨hcoherent, ?_⟩
  cases a with
  | sched b => exact ⟨o.step hg (step_effect hstep), u.step o hg (step_effect hstep)⟩
  | begin w | construct w | call w | back w =>
    have hstep : m.sched = s.sched := hstep
    rw [hstep]
    exact ⟨o, u⟩

/-- The steps of `Workers` in a run are a run of it. -/
theorem sched_run {thread : ω → Int} {acts : List (Act ω φ κ)} {m : State ω φ κ} (k : Coherent s)
    (o : Owned s.sched) (u : Sole s.sched) (hm : Meets (step thread) (Exclusive thread) s acts)
    (h : run (step thread) s acts = some m) :
    run (Workers.step thread) s.sched (acts.filterMap Act.sched?) = some m.sched := by
  induction acts generalizing s with
  | nil =>
    cases h
    rfl
  | cons a rest ih =>
    obtain ⟨v, hv, hrest⟩ := run_cons.mp h
    obtain ⟨hcoherent, hstep⟩ := coherent_step k o u hv
    cases a with
    | sched b =>
      have hg : TakesFree thread s.sched b := hm.1
      have hstep : Workers.step thread s.sched b = some v.sched := hstep
      refine run_cons.mpr ⟨v.sched, hstep, ih hcoherent ?_ ?_ (hm.2 v hv) hrest⟩
      · exact o.step hg (step_effect hstep)
      · exact u.step o hg (step_effect hstep)
    | begin w | construct w | call w | back w =>
      have hstep : v.sched = s.sched := hstep
      have hrun := ih hcoherent (by rw [hstep]; exact o) (by rw [hstep]; exact u) (hm.2 v hv) hrest
      rw [hstep] at hrun
      exact hrun

omit [DecidableEq φ] in
/-- No stack is executed by two threads. -/
theorem Coherent.stack_unique (k : Coherent s) (u : Sole s.sched) {w w' : ω} (h : s.stack w = s.stack w') :
    w = w' := by
  have hat : ∀ w, s.Owns w (s.stack w) ∨ ∃ f kd st, s.stack w = .task f ∧ s.sched.pc w = .inside st kd f := by
    intro w
    have hseat := k.seat w
    rcases hpc : s.sched.pc w with _ | _ | ft | ⟨st, kd, f⟩ | _ <;> rw [hpc] at hseat
    · by_cases hw : s.rootThread = some w
      · cases (k.rooted w hw).phase with
        | constructed _ hst => exact .inl (.inl hst)
        | called _ hst => exact .inl (.inr ⟨hst, hw⟩)
        | inside hout => exact absurd hpc hout
        | returned hex => cases hpc.symm.trans hex
      · exact .inl (.inl (hseat hw).1)
    · exact .inl (hseat.1 ▸ owns_loop s w)
    · exact .inl (hseat.1 ▸ owns_loop s w)
    · cases st with
      | running => exact .inr ⟨f, kd, _, hseat.1, rfl⟩
      | leaving => exact .inr ⟨f, kd, _, hseat.1, rfl⟩
      | entry | entered | back | check | hold => exact .inl (hseat.1 ▸ owns_loop s w)
    · obtain hseat | ⟨-, hst⟩ := hseat
      · exact .inl (hseat.1 ▸ owns_loop s w)
      · exact .inl (.inl hst)
  obtain hw | ⟨f, kd, st, hst, hpc⟩ := hat w
  · obtain hw' | ⟨f, kd, st, hst, hpc⟩ := hat w'
    · exact owns_unique hw (h ▸ hw')
    · exact absurd (h.trans hst) (owns_ne_task hw f)
  · obtain hw' | ⟨f', kd', st', hst', hpc'⟩ := hat w'
    · exact absurd (h.symm.trans hst) (owns_ne_task hw' f)
    · obtain rfl := Ref.task.inj (hst.symm.trans (h.trans hst'))
      exact u.unique w w' f (engages_inside hpc) (engages_inside hpc')

/-- **The pointers and contexts of the code do what `Workers` says**, in every run whose scans
take free fibers: nothing is dereferenced or loaded that is not there, the steps are a run of
`Workers`, a fiber that a worker runs is what its thread executes and `GetThis` answers, `run`
executes on the scheduler fiber of its own thread, and no stack is executed twice. -/
theorem contexts_reachable (thread : ω → Int) (acts : List (Act ω φ κ)) (s : State ω φ κ)
    (hm : Meets (step thread) (Exclusive thread) start acts) (h : run (step thread) start acts = some s) :
    (s.fault = none ∧ s.sched.fault = none) ∧
    run (Workers.step thread) Workers.start (acts.filterMap Act.sched?) = some s.sched ∧
    (∀ w kd f, s.sched.pc w = .inside .running kd f → s.stack w = .task f ∧ (s.getThis w).1 = .task f) ∧
    (∀ w, homely (s.sched.pc w) = true → s.stack w = s.loop w ∧ (s.getThis w).1 = s.loop w) ∧
    ∀ w w', s.stack w = s.stack w' → w = w' := by
  obtain ⟨k, -, u⟩ := coherent_reachable hm h
  refine ⟨⟨k.fault, u.fault⟩, sched_run start_coherent start_owned start_sole hm h, fun w kd f hpc => ?_,
    fun w hhome => ?_, fun w w' hw => k.stack_unique u hw⟩
  · have hseat := k.seat w
    rw [hpc] at hseat
    exact ⟨hseat.1, by rw [State.getThis, hseat.2.1]⟩
  · obtain ⟨hstack, hthis⟩ := (seat_homely hhome).mp (k.seat w)
    exact ⟨hstack, by rw [State.getThis, hthis]⟩

/-- **Every run of `Workers` whose scans take free fibers is one of the code**, with any thread or
none as the caller. -/
theorem contexts_lift (thread : ω → Int) (caller : Option ω) (acts : List (Workers.Act ω φ κ))
    (t : Workers.State ω φ κ) (hm : Meets (Workers.step thread) (TakesFree thread) Workers.start acts)
    (h : run (Workers.step thread) Workers.start acts = some t) :
    ∃ as s, run (step thread) start (caller.toList.map Act.construct ++ as) = some s ∧
      as.filterMap Act.sched? = acts ∧ s.sched = t ∧ s.fault = none := by
  have hlift : ∀ (s : State ω φ κ), Coherent s → Owned s.sched → Sole s.sched →
      Meets (Workers.step thread) (TakesFree thread) s.sched acts → run (Workers.step thread) s.sched acts = some t →
      ∃ as m, run (step thread) s as = some m ∧ as.filterMap Act.sched? = acts ∧ m.sched = t ∧ m.fault = none := by
    clear hm h
    induction acts with
    | nil =>
      intro s k o u hm h
      exact ⟨[], s, rfl, rfl, Option.some.inj h, k.fault⟩
    | cons b rest ih =>
      intro s k o u hm h
      obtain ⟨v, hv, hrest⟩ := run_cons.mp h
      obtain ⟨as, m, has, hb, rfl, hcoherent⟩ := lift_step k o u hv
      obtain ⟨as', m', has', hacts, hsched, hfault⟩ := ih m hcoherent (o.step hm.1 (step_effect hv))
        (u.step o hm.1 (step_effect hv)) (hm.2 m.sched hv) hrest
      exact ⟨as ++ as', m', run_append.mpr ⟨m, has, has'⟩, by rw [List.filterMap_append, hb, hacts]; rfl, hsched, hfault⟩
  cases caller with
  | none => exact hlift start start_coherent start_owned start_sole hm h
  | some w =>
    obtain ⟨m, hmc⟩ : ∃ m, (start : State ω φ κ).construct w = some m := ⟨_, rfl⟩
    obtain ⟨hsched, hcoherent⟩ := construct_spec start_coherent hmc
    have hs : m.sched = (Workers.start : Workers.State ω φ κ) := hsched
    obtain ⟨as, s, has, hacts, ht, hfault⟩ := hlift m hcoherent (by rw [hs]; exact start_owned)
      (by rw [hs]; exact start_sole) (by rw [hs]; exact hm) (by rw [hs]; exact h)
    refine ⟨as, s, run_cons.mpr ⟨m, ?_, has⟩, hacts, ht, hfault⟩
    exact (step_eq start_coherent start_sole thread (.construct w)).trans hmc

end

end

/-- Thread 0 is the caller. Fiber 1 begins on it, from `stop` on, yields as READY and goes on on
thread 1. -/
def callerActs : List (Act (Fin 2) Nat Nat) :=
  [.construct 0, .sched (.enter 1 11), .sched (.create 1 7), .sched (.schedule [{ fiber := some 1 }]), .call 0,
    .sched (.enter 0 10), .sched (.work 0 20), .sched (.work 0 20), .sched (.work 0 20), .sched (.work 0 20),
    .begin 0, .sched (.yieldToReady 0), .sched (.work 0 20), .sched (.work 0 20), .sched (.work 0 20),
    .sched (.work 1 20), .sched (.work 1 20), .sched (.work 1 20), .sched (.work 1 20)]

theorem contexts_reachable_sample : ∃ s, run (step fun w : Fin 2 => w.val) start callerActs = some s ∧
    s.stack 0 = .root ∧ s.stack 1 = .task 1 ∧
    (s.fault = none ∧ s.sched.fault = none) ∧
    run (Workers.step fun w : Fin 2 => w.val) Workers.start (callerActs.filterMap Act.sched?) = some s.sched ∧
    (∀ w kd f, s.sched.pc w = .inside .running kd f → s.stack w = .task f ∧ (s.getThis w).1 = .task f) ∧
    (∀ w, homely (s.sched.pc w) = true → s.stack w = s.loop w ∧ (s.getThis w).1 = s.loop w) ∧
    ∀ w w', s.stack w = s.stack w' → w = w' :=
  ⟨_, rfl, rfl, rfl, contexts_reachable (fun w : Fin 2 => w.val) callerActs _ (by decide) rfl⟩

theorem contexts_lift_sample : ∃ t, run (Workers.step fun w : Fin 2 => w.val) Workers.start handedActs = some t ∧
    ∃ as s, run (step fun w : Fin 2 => w.val) start ((some 0 : Option (Fin 2)).toList.map Act.construct ++ as) = some s ∧
      as.filterMap Act.sched? = handedActs ∧ s.sched = t ∧ s.fault = none :=
  ⟨_, rfl, contexts_lift (fun w : Fin 2 => w.val) (some 0) handedActs _ (by decide) rfl⟩

end ShioSylar.Scheduler.Contexts
