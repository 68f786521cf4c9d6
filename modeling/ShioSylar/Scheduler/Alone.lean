import ShioSylar.Scheduler.Owned

/-! One worker at a time.

`run` passes over a fiber in EXEC, but the state is EXEC only from `swapIn` to a yield. A
fiber that is queued twice is taken by two workers before either of them writes EXEC
(`taken_twice`), and `YieldToReady` writes READY before the context is saved. In every run
whose scans only take fibers that no worker is engaged with, unless they have ended, a
fiber is on one worker and no assertion fails (`alone_reachable`). `Sole` is where every fiber
is in such a run. -/
namespace ShioSylar.Scheduler.Workers
open Lib

variable {ω φ κ : Type}

/-! ### Where a fiber is -/

/-- A worker is at the fiber, or about to switch to it. -/
def State.Engages (s : State ω φ κ) (w : ω) (f : φ) : Prop :=
  (s.pc w).fiber = some f ∧ ∀ ft, s.pc w = .chosen ft → s.ended f = false

/-- The record of a fiber that a worker engages. -/
def Stands (r : Fiber κ) : Pc φ κ → Prop
  | .chosen _ => r.saved = true ∧ r.state ≠ .exec ∧ r.ended = false
  | .inside .entry _ _ => r.saved = true ∧ r.state ≠ .exec ∧ r.ended = false
  | .inside .entered _ _ => r.saved = true ∧ r.state = .exec
  | .inside .running _ _ => r.state = .exec
  | .inside .leaving _ _ => True
  | .inside .back _ _ => r.saved = true
  | .inside .check _ _ => r.saved = true
  | .inside .hold _ _ => r.saved = true ∧ r.ended = false
  | _ => True

structure Sole (s : State ω φ κ) : Prop where
  fault : s.fault = none
  unique : ∀ w w' f, s.Engages w f → s.Engages w' f → w = w'
  stands : ∀ w f, s.Engages w f → ∃ r, s.fiber f = some r ∧ Stands r (s.pc w)
  settled : ∀ f r, s.fiber f = some r → (∀ w, ¬ s.Engages w f) → r.saved = true ∧ r.state ≠ .exec
  /-- A `cb_fiber` at rest has been reset. -/
  callback : ∀ w g r, (s.worker w).cbFiber = some g → s.fiber g = some r →
    (∀ w', ¬ s.Engages w' g) → r.state = .init
  /-- `idle` does not throw. -/
  idle : ∀ w i r, (s.worker w).idleFiber = some i → s.fiber i = some r → r.state ≠ .except

theorem start_sole : Sole (start : State ω φ κ) := by
  refine ⟨rfl, fun w w' f h => ?_, fun w f h => ?_, fun f r h => (nomatch h), fun w g r h => (nomatch h),
    fun w i r h => (nomatch h)⟩
  · cases h.1
  · cases h.1

section
variable {s t : State ω φ κ} {w : ω} {f : φ} {r : Fiber κ}

/-- From `s` to `t` only the worker `w` and the fiber `f` have moved, and its record is `r`. -/
structure Shift [DecidableEq φ] (s t : State ω φ κ) (w : ω) (f : φ) (r : Fiber κ) : Prop where
  fault : t.fault = none
  worker : ∀ w', w' ≠ w → t.worker w' = s.worker w'
  fiber : t.fiber = Function.update s.fiber f (some r)
  before : ∀ f', s.Engages w f' → f' = f
  after : ∀ f', t.Engages w f' → f' = f
  /-- No other worker engages the fiber. -/
  alone : ∀ w', w' ≠ w → ¬ s.Engages w' f ∧ ¬ t.Engages w' f
  stands : t.Engages w f → Stands r (t.pc w)
  settled : ¬ t.Engages w f → r.saved = true ∧ r.state ≠ .exec
  cbFiber : ∀ g, (t.worker w).cbFiber = some g → g = f ∨ (s.worker w).cbFiber = some g
  idleFiber : ∀ i, (t.worker w).idleFiber = some i → i = f ∨ (s.worker w).idleFiber = some i
  callback : ∀ w', (t.worker w').cbFiber = some f → ¬ t.Engages w f → r.state = .init
  idle : ∀ w', (t.worker w').idleFiber = some f → r.state ≠ .except

section
variable [DecidableEq φ]

theorem Shift.fiber_other (m : Shift s t w f r) {f' : φ} (hf : f' ≠ f) : t.fiber f' = s.fiber f' := by
  rw [m.fiber, Function.update_of_ne hf]

theorem Shift.fiber_self (m : Shift s t w f r) : t.fiber f = some r := by
  rw [m.fiber, Function.update_self]

theorem Shift.pc_other (m : Shift s t w f r) {w' : ω} (hw : w' ≠ w) : t.pc w' = s.pc w' :=
  pc_congr (m.worker w' hw)

theorem Shift.engages_other (m : Shift s t w f r) {w' : ω} {f' : φ} (hw : w' ≠ w) (hf : f' ≠ f) :
    t.Engages w' f' ↔ s.Engages w' f' := by
  rw [State.Engages, State.Engages, m.pc_other hw, State.ended, State.ended, m.fiber_other hf]

/-- Who engages a fiber now did so before, or is the moved worker. -/
theorem Shift.engages (m : Shift s t w f r) {w' : ω} {f' : φ} (h : t.Engages w' f') :
    (w' = w ∧ f' = f) ∨ (w' ≠ w ∧ f' ≠ f ∧ s.Engages w' f') := by
  by_cases hw : w' = w
  · subst hw
    exact .inl ⟨rfl, m.after f' h⟩
  · have hf : f' ≠ f := by
      rintro rfl
      exact (m.alone w' hw).2 h
    exact .inr ⟨hw, hf, (m.engages_other hw hf).mp h⟩

theorem Sole.shift (k : Sole s) (m : Shift s t w f r) : Sole t := by
  -- a fiber that nobody engages was engaged by nobody
  have hfree : ∀ {f'}, f' ≠ f → (∀ w', ¬ t.Engages w' f') → ∀ w', ¬ s.Engages w' f' := by
    intro f' hf hnone w' h
    by_cases hw : w' = w
    · subst hw
      exact hf (m.before f' h)
    · exact hnone w' ((m.engages_other hw hf).mpr h)
  refine ⟨m.fault, fun w₁ w₂ f' h₁ h₂ => ?_, fun w' f' h => ?_, fun f' r' hr' hnone => ?_,
    fun w' g r' hg hr' hnone => ?_, fun w' i r' hi hr' => ?_⟩
  · rcases m.engages h₁ with ⟨hw₁, hf₁⟩ | ⟨-, hf₁, hs₁⟩
    · rcases m.engages h₂ with ⟨hw₂, -⟩ | ⟨-, hf₂, -⟩
      · exact hw₁.trans hw₂.symm
      · exact absurd hf₁ hf₂
    · rcases m.engages h₂ with ⟨-, hf₂⟩ | ⟨-, -, hs₂⟩
      · exact absurd hf₂ hf₁
      · exact k.unique w₁ w₂ f' hs₁ hs₂
  · rcases m.engages h with ⟨rfl, rfl⟩ | ⟨hw, hf, hs⟩
    · exact ⟨r, m.fiber_self, m.stands h⟩
    · obtain ⟨r', hr', hstands⟩ := k.stands w' f' hs
      exact ⟨r', (m.fiber_other hf).trans hr', (m.pc_other hw).symm ▸ hstands⟩
  · by_cases hf : f' = f
    · subst hf
      cases m.fiber_self.symm.trans hr'
      exact m.settled (hnone w)
    · exact k.settled f' r' ((m.fiber_other hf).symm.trans hr') (hfree hf hnone)
  · by_cases hf : g = f
    · subst hf
      cases m.fiber_self.symm.trans hr'
      exact m.callback w' hg (hnone w)
    · have hold : (s.worker w').cbFiber = some g := by
        by_cases hw : w' = w
        · subst hw
          exact (m.cbFiber g hg).resolve_left hf
        · rwa [m.worker w' hw] at hg
      exact k.callback w' g r' hold ((m.fiber_other hf).symm.trans hr') (hfree hf hnone)
  · by_cases hf : i = f
    · subst hf
      cases m.fiber_self.symm.trans hr'
      exact m.idle w' hi
    · have hold : (s.worker w').idleFiber = some i := by
        by_cases hw : w' = w
        · subst hw
          exact (m.idleFiber i hi).resolve_left hf
        · rwa [m.worker w' hw] at hi
      exact k.idle w' i r' hold ((m.fiber_other hf).symm.trans hr')

end

/-- A worker that engages nobody moves, and engages nobody. -/
theorem Sole.wander (k : Sole s) (hfault : t.fault = none) (hfiber : t.fiber = s.fiber)
    (hworker : ∀ w', w' ≠ w → t.worker w' = s.worker w') (hbefore : ∀ f, ¬ s.Engages w f)
    (hafter : ∀ f, ¬ t.Engages w f) (hcb : (t.worker w).cbFiber = (s.worker w).cbFiber)
    (hid : (t.worker w).idleFiber = (s.worker w).idleFiber) : Sole t := by
  have hengages : ∀ w' f, t.Engages w' f ↔ s.Engages w' f := by
    intro w' f
    by_cases hw : w' = w
    · subst hw
      exact iff_of_false (hafter f) (hbefore f)
    · rw [State.Engages, State.Engages, State.pc, hworker w' hw, State.pc, State.ended, State.ended, hfiber]
  have hown : ∀ w', (t.worker w').cbFiber = (s.worker w').cbFiber ∧
      (t.worker w').idleFiber = (s.worker w').idleFiber := by
    intro w'
    by_cases hw : w' = w
    · subst hw
      exact ⟨hcb, hid⟩
    · rw [hworker w' hw]
      exact ⟨rfl, rfl⟩
  refine ⟨hfault, fun w₁ w₂ f h₁ h₂ => ?_, fun w' f h => ?_, fun f r hr hnone => ?_,
    fun w' g r hg hr hnone => ?_, fun w' i r hi hr => ?_⟩
  · exact k.unique w₁ w₂ f ((hengages w₁ f).mp h₁) ((hengages w₂ f).mp h₂)
  · obtain ⟨r, hr, hstands⟩ := k.stands w' f ((hengages w' f).mp h)
    have hw : w' ≠ w := by
      rintro rfl
      exact hafter f h
    refine ⟨r, by rw [hfiber, hr], ?_⟩
    rwa [State.pc, hworker w' hw]
  · exact k.settled f r (hfiber ▸ hr) fun w' h => hnone w' ((hengages w' f).mpr h)
  · exact k.callback w' g r ((hown w').1 ▸ hg) (hfiber ▸ hr) fun w'' h => hnone w'' ((hengages w'' g).mpr h)
  · exact k.idle w' i r ((hown w').2 ▸ hi) (hfiber ▸ hr)

/-! ### One step -/

theorem engages_inside {st : Stage} {kd : Kind} (hpc : s.pc w = .inside st kd f) : s.Engages w f :=
  ⟨by rw [hpc]; rfl, fun ft h => by rw [hpc] at h; cases h⟩

/-- A fiber that a worker is inside with, and what is known of its record. -/
theorem Sole.here (k : Sole s) {st : Stage} {kd : Kind} (hpc : s.pc w = .inside st kd f) :
    ∃ r, s.fiber f = some r ∧ Stands r (.inside st kd f) := by
  obtain ⟨r, hr, hstands⟩ := k.stands w f (engages_inside hpc)
  rw [hpc] at hstands
  exact ⟨r, hr, hstands⟩

theorem Sole.stands_here (k : Sole s) {st : Stage} {kd : Kind} (hpc : s.pc w = .inside st kd f)
    (hr : s.fiber f = some r) : Stands r (.inside st kd f) := by
  obtain ⟨r', hr', hstands⟩ := k.here hpc
  cases hr.symm.trans hr'
  exact hstands

theorem engages_eq {st : Stage} {kd : Kind} (hpc : s.pc w = .inside st kd f) {f' : φ}
    (h : s.Engages w f') : f' = f := by
  have hf := h.1
  rw [hpc] at hf
  exact (Option.some.inj hf).symm

theorem not_engages (hpc : (s.pc w).fiber = none) (f : φ) : ¬ s.Engages w f := by
  intro h
  cases hpc.symm.trans h.1

theorem ended_eq (hr : s.fiber f = some r) : s.ended f = r.ended := by
  simp [State.ended, hr]

/-- A worker with a fiber that has ended, or none, engages nobody. -/
theorem not_engages_of_runnable {ft : FiberAndThread φ κ} (hpc : s.pc w = .chosen (some ft))
    (hrun : s.runnable (some ft) = none) (f : φ) : ¬ s.Engages w f := by
  rintro ⟨hf, hlive⟩
  rw [hpc] at hf
  have hlive := hlive _ hpc
  have hf : ft.fiber = some f := hf
  rw [State.ended] at hlive
  simp [State.runnable, hf, hlive] at hrun

/-- How a worker has to do with a fiber. -/
theorem Owned.at_worker (o : Owned s) (hf : (s.pc w).fiber = some f) : s.Free f ∨
    ((s.worker w).cbFiber = some f ∧ ∃ st, s.pc w = .inside st .callback f) ∨ (s.worker w).idleFiber = some f := by
  rcases hpc : s.pc w with _ | _ | ft | ⟨st, kd, f'⟩ | _ <;> rw [hpc] at hf
  · cases hf
  · cases hf
  · cases ft with
    | none => cases hf
    | some ft => exact .inl (o.chosen w ft f hpc hf)
  · cases hf
    cases kd with
    | task => exact .inl (o.task w st f hpc)
    | callback => exact .inr (.inl ⟨o.callback w st f hpc, st, rfl⟩)
    | idle => exact .inr (.inr (o.idle w st f hpc))
  · cases hf

/-- A shared fiber is no `idle_fiber`. -/
theorem Owned.not_idle (o : Owned s) (hs : s.shared f = true) (w : ω) : (s.worker w).idleFiber ≠ some f := by
  intro h
  obtain ⟨x, hx, hne⟩ := shared_iff.mp hs
  cases (o.idleFiber w f h).1.symm.trans hx
  exact hne rfl

/-- Where no fiber is, no worker is. -/
theorem Owned.nobody (o : Owned s) (hf : s.fiber f = none) (w : ω) : (s.pc w).fiber ≠ some f ∧
    (s.worker w).cbFiber ≠ some f ∧ (s.worker w).idleFiber ≠ some f := by
  have horigin : s.origin f = none := by simp [State.origin, hf]
  have hcb : (s.worker w).cbFiber ≠ some f := fun h => by cases horigin.symm.trans (o.cbFiber w f h).1
  have hid : (s.worker w).idleFiber ≠ some f := fun h => by cases horigin.symm.trans (o.idleFiber w f h).1
  refine ⟨fun h => ?_, hcb, hid⟩
  rcases o.at_worker h with ⟨hshared, -⟩ | ⟨hown, -⟩ | hown
  · obtain ⟨x, hx, -⟩ := shared_iff.mp hshared
    cases horigin.symm.trans hx
  · exact hcb hown
  · exact hid hown

/-- A `cb_fiber` is engaged by its own worker only, as such. -/
theorem Owned.cb_engaged (o : Owned s) {g : φ} (hown : (s.worker w).cbFiber = some g) {w' : ω}
    (h : s.Engages w' g) : w' = w ∧ ∃ st, s.pc w' = .inside st .callback g := by
  obtain ⟨ho, honly⟩ := o.cbFiber w g hown
  rcases o.at_worker h.1 with ⟨-, hfree⟩ | ⟨hown', hin⟩ | hidle
  · exact absurd hown (hfree w)
  · exact ⟨honly w' hown', hin⟩
  · cases ho.symm.trans (o.idleFiber w' g hidle).1

/-- An `idle_fiber` is engaged by its own worker only. -/
theorem Owned.idle_engaged (o : Owned s) {i : φ} (hown : (s.worker w).idleFiber = some i) {w' : ω}
    (h : s.Engages w' i) : w' = w := by
  obtain ⟨ho, honly⟩ := o.idleFiber w i hown
  rcases o.at_worker h.1 with ⟨hshared, -⟩ | ⟨hown', -⟩ | hidle
  · exact absurd hown (o.not_idle hshared w)
  · cases ho.symm.trans (o.cbFiber w' i hown').1
  · exact honly w' hidle

/-- No step fails. -/
theorem Sole.not_fails [DecidableEq φ] {thread : ω → Int} {e : Fault} (k : Sole s) (o : Owned s) :
    ¬ Fails thread s e := by
  rintro (⟨hpc, h⟩ | ⟨hpc, hown, hr, he⟩ | ⟨hpc, hr, he⟩ | ⟨hpc, hr, he⟩ | ⟨hpc, hr, he⟩)
  · obtain ⟨x, hx, -⟩ := @fetch_spec _ _ _ s.isExec _ fun it hit => (o.queue it hit).1
    cases h.symm.trans hx
  · have hinit := k.callback _ _ _ hown hr fun w' h => by
      obtain ⟨rfl, st, hin⟩ := o.cb_engaged hown h
      cases hpc.symm.trans hin
    rw [Fiber.reset, if_pos (.inr (.inr hinit))] at he
    cases he
  · exact (k.stands_here hpc hr).2.1 he
  · cases he.symm.trans (k.stands_here hpc hr).1
  · exact he (k.stands_here hpc hr)

variable [DecidableEq ω] [DecidableEq φ]

omit [DecidableEq φ] in
@[simp] theorem goto_pc (s : State ω φ κ) (w : ω) (pc : Pc φ κ) : (s.goto w pc).pc w = pc := by
  simp [State.pc, State.goto]

omit [DecidableEq ω] in
/-- Other workers that are at a fiber engage it as little as before, unless it was ended and
lives again. -/
theorem Sole.alone (k : Sole s) (he : s.Engages w f) (hr : s.fiber f = some r) {r' : Fiber κ}
    (hdead : r.ended = true → r'.ended = true ∨ ∀ w' ft, s.pc w' ≠ .chosen (some ft) ∨ ft.fiber ≠ some f)
    (hworker : ∀ w', w' ≠ w → t.worker w' = s.worker w')
    (hfiber : t.fiber = Function.update s.fiber f (some r')) (w' : ω) (hw : w' ≠ w) :
    ¬ s.Engages w' f ∧ ¬ t.Engages w' f := by
  have hnot : ¬ s.Engages w' f := fun h => hw (k.unique w' w f h he)
  refine ⟨hnot, fun h => hnot ?_⟩
  have hpc : t.pc w' = s.pc w' := pc_congr (hworker w' hw)
  obtain ⟨hat, hlive⟩ := h
  rw [hpc] at hat hlive
  refine ⟨hat, fun ft hft => ?_⟩
  have hlive := hlive ft hft
  have hself : t.fiber f = some r' := by rw [hfiber, Function.update_self]
  rw [ended_eq hself] at hlive
  rw [ended_eq hr, Bool.eq_false_iff]
  intro hended
  rcases hdead hended with hended' | hno
  · cases hended'.symm.trans hlive
  · rw [hft] at hat
    cases ft with
    | none => cases hat
    | some ft => exact (hno w' ft).elim (fun h => h hft) fun h => h hat

/-- A worker goes on with the fiber it engages. -/
theorem Sole.advance (k : Sole s) (he : s.Engages w f) (hr : s.fiber f = some r) (r' : Fiber κ)
    {st : Stage} {kd : Kind} (hfault : t.fault = none)
    (hworker : t.worker = Function.update s.worker w { s.worker w with pc := .inside st kd f })
    (hfiber : t.fiber = Function.update s.fiber f (some r'))
    (hdead : r.ended = true → r'.ended = true) (hstands : Stands r' (.inside st kd f))
    (hidle : r'.state = .except → r.state = .except ∨ ∀ w', (s.worker w').idleFiber ≠ some f) : Sole t := by
  have hother : ∀ w', w' ≠ w → t.worker w' = s.worker w' := by
    intro w' hw
    rw [hworker, Function.update_of_ne hw]
  have hself : t.worker w = { s.worker w with pc := .inside st kd f } := by
    rw [hworker, Function.update_self]
  have hpc : t.pc w = .inside st kd f := by rw [State.pc, hself]
  have hat := engages_inside hpc
  refine k.shift (w := w) (f := f) (r := r') ⟨hfault, hother, hfiber, fun f' h => ?_,
    fun f' h => engages_eq hpc h, k.alone he hr (fun h => .inl (hdead h)) hother hfiber,
    fun _ => hpc ▸ hstands, fun h => absurd hat h, fun g hg => ?_, fun i hi => ?_,
    fun _ _ h => absurd hat h, fun w' hi hs => ?_⟩
  · exact Option.some.inj (h.1.symm.trans he.1)
  · rw [hself] at hg
    exact .inr hg
  · rw [hself] at hi
    exact .inr hi
  · have hold : (s.worker w').idleFiber = some f := by
      by_cases hw : w' = w
      · subst hw
        rwa [hself] at hi
      · rwa [hother w' hw] at hi
    rcases hidle hs with hex | hno
    · exact k.idle w' f r hold hr hex
    · exact hno w' hold

/-- A worker is done with its fiber. -/
theorem Sole.rest (k : Sole s) (o : Owned s) {st : Stage} {kd : Kind} (hpc : s.pc w = .inside st kd f)
    (hr : s.fiber f = some r) (r' : Fiber κ) {cb : Option φ} (hfault : t.fault = none)
    (hworker : t.worker = Function.update s.worker w { s.worker w with pc := .top, cbFiber := cb })
    (hfiber : t.fiber = Function.update s.fiber f (some r'))
    (hdead : r.ended = true → r'.ended = true ∨ kd = .callback) (hsaved : r'.saved = true)
    (hexec : r'.state ≠ .exec)
    (hidle : r'.state = .except → r.state = .except ∨ ∀ w', (s.worker w').idleFiber ≠ some f)
    (hcb : cb = none ∨ (cb = (s.worker w).cbFiber ∧ (kd = .callback → r'.state = .init))) : Sole t := by
  have he := engages_inside hpc
  have hother : ∀ w', w' ≠ w → t.worker w' = s.worker w' := by
    intro w' hw
    rw [hworker, Function.update_of_ne hw]
  have hself : t.worker w = { s.worker w with pc := .top, cbFiber := cb } := by
    rw [hworker, Function.update_self]
  have hout : (t.pc w).fiber = none := by rw [State.pc, hself]; rfl
  have hcbs : ∀ g, (t.worker w).cbFiber = some g → (s.worker w).cbFiber = some g := by
    intro g hg
    rw [hself] at hg
    rcases hcb with rfl | ⟨rfl, -⟩
    · cases hg
    · exact hg
  -- a worker that is at the fiber of a `cb_fiber` after a scan took it while it was shared
  have hdead' : r.ended = true → r'.ended = true ∨
      ∀ w' ft, s.pc w' ≠ .chosen (some ft) ∨ ft.fiber ≠ some f := by
    intro hended
    refine (hdead hended).imp_right fun hkd w' ft => ?_
    subst hkd
    by_cases hch : s.pc w' = .chosen (some ft)
    · exact .inr fun hf => (o.chosen w' ft f hch hf).2 w (o.callback w st f hpc)
    · exact .inl hch
  refine k.shift (w := w) (f := f) (r := r') ⟨hfault, hother, hfiber, fun f' h => engages_eq hpc h,
    fun f' h => absurd h (not_engages hout f'), k.alone he hr hdead' hother hfiber,
    fun h => absurd h (not_engages hout f), fun _ => ⟨hsaved, hexec⟩, fun g hg => .inr (hcbs g hg),
    fun i hi => .inr (by rwa [hself] at hi), fun w' hg _ => ?_, fun w' hi hs => ?_⟩
  · by_cases hw : w' = w
    · subst hw
      have hold := hcbs f hg
      obtain ⟨-, st', hin⟩ := o.cb_engaged hold he
      cases hpc.symm.trans hin
      rw [hself] at hg
      rcases hcb with rfl | ⟨-, hinit⟩
      · cases hg
      · exact hinit rfl
    · rw [hother w' hw] at hg
      exact absurd (o.cb_engaged hg he).1 (Ne.symm hw)
  · have hold : (s.worker w').idleFiber = some f := by
      by_cases hw : w' = w
      · subst hw
        rwa [hself] at hi
      · rwa [hother w' hw] at hi
    rcases hidle hs with hex | hno
    · exact k.idle w' f r hold hr hex
    · exact hno w' hold

/-- A worker turns to a fiber that nobody engages. -/
theorem Sole.engage (k : Sole s) (hbefore : ∀ f', ¬ s.Engages w f') {x : Worker φ κ}
    (hfault : t.fault = none) (hworker : t.worker = Function.update s.worker w x)
    (hfiber : t.fiber = Function.update s.fiber f (some r))
    (hafter : ∀ f', x.pc.fiber = some f' → f' = f) (hstands : Stands r x.pc)
    (halone : ∀ w', w' ≠ w → ¬ s.Engages w' f ∧ ¬ t.Engages w' f)
    (hsettled : ¬ t.Engages w f → r.saved = true ∧ r.state ≠ .exec)
    (hcb : ∀ g, x.cbFiber = some g → g = f ∨ (s.worker w).cbFiber = some g)
    (hcbinit : ∀ w', (t.worker w').cbFiber = some f → ¬ t.Engages w f → r.state = .init)
    (hid : ∀ i, x.idleFiber = some i → i = f ∨ (s.worker w).idleFiber = some i)
    (hidle : ∀ w', (t.worker w').idleFiber = some f → r.state ≠ .except) : Sole t := by
  have hself : t.worker w = x := by rw [hworker, Function.update_self]
  refine k.shift (w := w) (f := f) (r := r) ⟨hfault, fun w' hw => by rw [hworker, Function.update_of_ne hw],
    hfiber, fun f' h => absurd h (hbefore f'), fun f' h => hafter f' ?_, halone, fun _ => ?_, hsettled,
    fun g hg => hcb g (hself ▸ hg), fun i hi => hid i (hself ▸ hi), hcbinit, hidle⟩
  · have hf := h.1
    rwa [State.pc, hself] at hf
  · rwa [State.pc, hself]

omit [DecidableEq ω] [DecidableEq φ] in
/-- Nothing about workers or fibers changes. -/
theorem Sole.congr (k : Sole s) (hfault : t.fault = s.fault) (hworker : t.worker = s.worker)
    (hfiber : t.fiber = s.fiber) : Sole t := by
  have hpc : t.pc = s.pc := funext fun w => pc_congr (congrFun hworker w)
  have hengages : t.Engages = s.Engages := by
    funext w f
    simp only [State.Engages, hpc, State.ended, hfiber]
  refine ⟨hfault.trans k.fault, ?_, ?_, ?_, ?_, ?_⟩ <;> simp only [hengages, hpc, hfiber, hworker]
  · exact k.unique
  · exact k.stands
  · exact k.settled
  · exact k.callback
  · exact k.idle

omit [DecidableEq ω] in
/-- A fiber at a new address, in nobody's hands. -/
theorem Sole.create (k : Sole s) (o : Owned s) (hf : s.fiber f = none) (cb : Option κ) (origin : Origin) :
    Sole (s.put f { cb := cb, origin := origin }) := by
  set t := s.put f { cb := cb, origin := origin }
  have hother : ∀ {f'}, f' ≠ f → t.fiber f' = s.fiber f' := fun h => Function.update_of_ne h ..
  have hself : t.fiber f = some { cb := cb, origin := origin } := Function.update_self ..
  have hnobody := o.nobody hf
  have hengages : ∀ w f', t.Engages w f' ↔ s.Engages w f' := by
    intro w f'
    by_cases heq : f' = f
    · subst heq
      exact iff_of_false (fun h => (hnobody w).1 h.1) fun h => (hnobody w).1 h.1
    · rw [State.Engages, State.Engages, State.ended, State.ended, hother heq]
      exact Iff.rfl
  refine ⟨k.fault, fun w w' f' h h' => ?_, fun w f' h => ?_, fun f' r hr hnone => ?_,
    fun w g r hg hr hnone => ?_, fun w i r hi hr => ?_⟩
  · exact k.unique w w' f' ((hengages w f').mp h) ((hengages w' f').mp h')
  · have h := (hengages w f').mp h
    have hne : f' ≠ f := by
      rintro rfl
      exact (hnobody w).1 h.1
    rw [hother hne]
    exact k.stands w f' h
  · by_cases heq : f' = f
    · subst heq
      cases hself.symm.trans hr
      exact ⟨rfl, fun h => nomatch h⟩
    · exact k.settled f' r ((hother heq).symm.trans hr) fun w h => hnone w ((hengages w f').mpr h)
  · have hne : g ≠ f := by
      rintro rfl
      exact (hnobody w).2.1 hg
    exact k.callback w g r hg ((hother hne).symm.trans hr) fun w' h => hnone w' ((hengages w' g).mpr h)
  · have hne : i ≠ f := by
      rintro rfl
      exact (hnobody w).2.2 hi
    exact k.idle w i r hi ((hother hne).symm.trans hr)

omit [DecidableEq ω] in
theorem update_put (hr : s.fiber f = some r) : s.fiber = Function.update s.fiber f (some r) := by
  rw [← hr, Function.update_eq_self]

/-- A scan takes a node. -/
theorem Sole.scans {thread : ω → Int} {g : φ} (k : Sole s) (o : Owned s)
    (hg : TakesFree thread s (.work w g)) (hpc : s.pc w = .top) {x : Fetched φ κ}
    (hx : fetch (thread w) s.isExec s.fibers = some x) (c : Int) :
    Sole { s.goto w (.chosen x.task) with fibers := x.fibers, activeThreadCount := c } := by
  set t : State ω φ κ := { s.goto w (.chosen x.task) with fibers := x.fibers, activeThreadCount := c }
  have hbefore : ∀ f, ¬ s.Engages w f := not_engages (by rw [hpc]; rfl)
  have hpct : t.pc w = .chosen x.task := by simp [t, State.pc, State.goto]
  have hother : ∀ w', w' ≠ w → t.worker w' = s.worker w' := fun w' hw => Function.update_of_ne hw ..
  have hown : (t.worker w).cbFiber = (s.worker w).cbFiber ∧ (t.worker w).idleFiber = (s.worker w).idleFiber := by
    simp [t, State.goto]
  by_cases hlive : ∃ f, t.Engages w f
  · obtain ⟨f, hat, hlive⟩ := hlive
    rw [hpct] at hat
    obtain ⟨it, htask, hf⟩ := Option.bind_eq_some_iff.mp hat
    have hlive : s.ended f = false := hlive _ hpct
    obtain ⟨hit, -, hexec⟩ := (fetch_mem hx).2 it htask
    obtain ⟨hcb, hdone | hfree⟩ := hg f ((takes_eq hpc hx htask).trans hf)
    · cases hlive.symm.trans hdone
    have hshared := (o.queue it hit).2 f hf
    obtain ⟨r, hr⟩ : ∃ r, s.fiber f = some r := by
      obtain ⟨y, hy, -⟩ := shared_iff.mp hshared
      obtain ⟨r, hr, -⟩ := Option.map_eq_some_iff.mp hy
      exact ⟨r, hr⟩
    obtain ⟨hsaved, hne⟩ := k.settled f r hr fun w' h => hfree w' h.1
    rw [ended_eq hr] at hlive
    refine k.engage (w := w) (f := f) (r := r) hbefore k.fault rfl (update_put hr) (fun f' hf' => ?_)
      ⟨hsaved, hne, hlive⟩ (fun w' hw => ⟨fun h => hfree w' h.1, fun h => ?_⟩) (fun _ => ⟨hsaved, hne⟩)
      (fun g hg => .inr hg) (fun w' hg _ => ?_) (fun i hi => .inr hi) (fun w' hi => ?_)
    · exact Option.some.inj (hf'.symm.trans hat)
    · have hold := h.1
      rw [State.pc, hother w' hw] at hold
      exact hfree w' hold
    · by_cases hw : w' = w
      · subst hw
        exact absurd (hown.1 ▸ hg) (hcb w')
      · exact absurd (hother w' hw ▸ hg) (hcb w')
    · by_cases hw : w' = w
      · subst hw
        exact absurd (hown.2 ▸ hi) (o.not_idle hshared w')
      · exact absurd (hother w' hw ▸ hi) (o.not_idle hshared w')
  · exact k.wander (w := w) k.fault rfl hother hbefore (fun f h => hlive ⟨f, h⟩) hown.1 hown.2

/-- A fiber that has been taken is switched to. -/
theorem Sole.runs (k : Sole s) {ft : FiberAndThread φ κ} (hpc : s.pc w = .chosen (some ft))
    (hrun : s.runnable (some ft) = some f) : Sole (s.goto w (.inside .entry .task f)) := by
  obtain ⟨hf, hlive⟩ := Option.filter_eq_some_iff.mp hrun
  have hf : ft.fiber = some f := hf
  have he : s.Engages w f := by
    refine ⟨by rw [hpc]; exact hf, fun _ _ => ?_⟩
    simpa [State.ended] using hlive
  obtain ⟨r, hr, hstands⟩ := k.stands w f he
  rw [hpc] at hstands
  exact k.advance he hr r k.fault rfl (update_put hr) id hstands .inl

/-- The callback of a node goes into the `cb_fiber`. -/
theorem Sole.resets (k : Sole s) (o : Owned s) {ft : FiberAndThread φ κ} {cb : κ} {r' : Fiber κ}
    (hpc : s.pc w = .chosen (some ft)) (hrun : s.runnable (some ft) = none)
    (hown : (s.worker w).cbFiber = some f) (hreset : r.reset (some cb) = .ok r') : Sole ((s.put f r').goto w (.inside .entry .callback f)) := by
  obtain ⟨-, hinit, hsaved⟩ := reset_origin hreset
  have hnone : ∀ w', ¬ s.Engages w' f := by
    intro w' h
    obtain ⟨rfl, st, hin⟩ := o.cb_engaged hown h
    cases hpc.symm.trans hin
  have hat : ((s.put f r').goto w (.inside .entry .callback f)).Engages w f :=
    engages_inside (goto_pc ..)
  refine k.engage (w := w) (f := f) (r := r') (not_engages_of_runnable hpc hrun) k.fault rfl rfl
    (fun f' hf' => (Option.some.inj hf').symm)
    ⟨hsaved, by simp [hinit], by simp [Fiber.ended, hinit]⟩ (fun w' hw => ⟨hnone w', fun h => ?_⟩)
    (fun h => absurd hat h) (fun g hg => .inr hg) (fun _ _ h => absurd hat h) (fun i hi => .inr hi)
    (fun w' hi => by simp [hinit])
  -- nobody else is at a `cb_fiber`
  have hat' := h.1
  have hpcs : ((s.put f r').goto w (.inside .entry .callback f)).pc w' = s.pc w' := by
    simp [State.pc, State.goto, State.put, hw]
  rw [hpcs] at hat'
  refine hnone w' ⟨hat', fun ft' hft' => ?_⟩
  rw [hft'] at hat'
  cases ft' with
  | none => cases hat'
  | some ft' => exact absurd hown ((o.chosen w' ft' f hft' hat').2 w)

/-- A worker makes a `cb_fiber`. -/
theorem Sole.makes (k : Sole s) (o : Owned s) {ft : FiberAndThread φ κ} {cb : κ}
    (hpc : s.pc w = .chosen (some ft)) (hrun : s.runnable (some ft) = none) (hf : s.fiber f = none) :
    Sole { s.put f { cb := some cb, origin := .callback } with
      worker := Function.update s.worker w
        { s.worker w with pc := .inside .entry .callback f, cbFiber := some f } } := by
  set t : State ω φ κ := { s.put f { cb := some cb, origin := .callback } with
    worker := Function.update s.worker w
      { s.worker w with pc := .inside .entry .callback f, cbFiber := some f } }
  have hpct : t.pc w = .inside .entry .callback f := by simp [t, State.pc]
  have hat : t.Engages w f := engages_inside hpct
  refine k.engage (w := w) (f := f) (r := { cb := some cb, origin := .callback })
    (not_engages_of_runnable hpc hrun) k.fault rfl rfl (fun f' hf' => (Option.some.inj hf').symm)
    ⟨rfl, by simp, by simp [Fiber.ended]⟩
    (fun w' hw => ⟨fun h => (o.nobody hf w').1 h.1, fun h => (o.nobody hf w').1 ?_⟩)
    (fun h => absurd hat h) (fun g hg => .inl (Option.some.inj hg).symm) (fun _ _ h => absurd hat h)
    (fun i hi => .inr hi) (fun w' hi => by simp)
  have hat' := h.1
  simpa [t, State.pc, hw] using hat'

/-- A worker turns to its `idle_fiber`. -/
theorem Sole.idles (k : Sole s) (o : Owned s) (hpc : s.pc w = .chosen none)
    (hown : (s.worker w).idleFiber = some f) (hterm : (s.fiber f).any (·.state = .term) = false) (c : Int) :
    Sole { s.goto w (.inside .entry .idle f) with idleThreadCount := c } := by
  set t : State ω φ κ := { s.goto w (.inside .entry .idle f) with idleThreadCount := c }
  obtain ⟨horigin, -⟩ := o.idleFiber w f hown
  obtain ⟨r, hr, -⟩ := Option.map_eq_some_iff.mp horigin
  have hout : (s.pc w).fiber = none := by rw [hpc]; rfl
  have hnone : ∀ w', ¬ s.Engages w' f := by
    intro w' h
    cases o.idle_engaged hown h
    exact not_engages hout f h
  obtain ⟨hsaved, hexec⟩ := k.settled f r hr hnone
  have hended : r.ended = false := by
    have hexcept := k.idle w f r hown hr
    simp only [hr, Option.any_some, decide_eq_false_iff_not] at hterm
    simp [Fiber.ended, hterm, hexcept]
  have hat : t.Engages w f := engages_inside (goto_pc s w _)
  refine k.engage (w := w) (f := f) (r := r) (not_engages hout) k.fault rfl (update_put hr)
    (fun f' hf' => (Option.some.inj hf').symm) ⟨hsaved, hexec, hended⟩
    (fun w' hw => ⟨hnone w', fun h => hnone w' ?_⟩) (fun h => absurd hat h) (fun g hg => .inr hg)
    (fun _ _ h => absurd hat h) (fun i hi => .inr hi) (fun w' hi => k.idle w f r hown hr)
  obtain ⟨hat', hlive⟩ := h
  have hpcs : t.pc w' = s.pc w' := by simp [t, State.pc, State.goto, hw]
  rw [hpcs] at hat' hlive
  exact ⟨hat', hlive⟩

theorem Sole.rewrites (k : Sole s) (o : Owned s) {st st' : Stage} {kd : Kind} {r' : Fiber κ}
    (hpc : s.pc w = .inside st kd f) (hr : s.fiber f = some r) (h : Rewrites st st' r r')
    (hthrew : st = .running → r'.state = .except → s.shared f = true) (b : φ → Bool) :
    Sole { (s.put f r').goto w (.inside st' kd f) with woken := b } := by
  have he := engages_inside hpc
  have hstands := k.stands_here hpc hr
  cases h with
  | swapIn hne =>
    refine k.advance he hr _ k.fault rfl rfl (fun h => ?_) ⟨hstands.1, rfl⟩ (fun h => by cases h)
    cases hstands.2.2.symm.trans h
  | switchTo hsaved => exact k.advance he hr _ k.fault rfl rfl id hstands.2 .inl
  | yieldToHold hexec => exact k.advance he hr _ k.fault rfl rfl id trivial .inl
  | yieldToReady hexec =>
    refine k.advance he hr _ k.fault rfl rfl (fun h => ?_) trivial (fun h => by cases h)
    simp [Fiber.ended, hexec] at h
  | term => exact k.advance he hr _ k.fault rfl rfl (fun _ => rfl) trivial (fun h => by cases h)
  | except =>
    exact k.advance he hr _ k.fault rfl rfl (fun _ => rfl) trivial fun _ =>
      .inr (o.not_idle (hthrew rfl rfl))
  | switchFrom => exact k.advance he hr _ k.fault rfl rfl id rfl .inl

omit [DecidableEq φ] in
/-- A worker that engages nobody goes where it has no fiber. -/
theorem Sole.goes (k : Sole s) (hbefore : ∀ f, ¬ s.Engages w f) {pc : Pc φ κ} (hpc : pc.fiber = none)
    (c : Int) : Sole { s.goto w pc with activeThreadCount := c } := by
  refine k.wander (w := w) k.fault rfl (fun w' hw => Function.update_of_ne hw ..) hbefore (fun f h => ?_) ?_ ?_
  · have hat := h.1
    rw [show State.pc { s.goto w pc with activeThreadCount := c } w = pc from goto_pc s w pc, hpc] at hat
    cases hat
  · simp [State.goto]
  · simp [State.goto]

omit [DecidableEq ω] [DecidableEq φ] in
/-- What becomes of the `cb_fiber` of a worker that is done with a fiber that has not ended. -/
theorem leaves_cb (cb : Option φ) (kd : Kind) {p : Prop} :
    (if kd = .callback then none else cb) = none ∨
      ((if kd = .callback then none else cb) = cb ∧ (kd = .callback → p)) := by
  by_cases hk : kd = .callback
  · exact .inl (if_pos hk)
  · exact .inr ⟨if_neg hk, fun h => absurd h hk⟩

/-- A step of a run whose scans take free fibers. -/
theorem Sole.step {thread : ω → Int} {a : Act ω φ κ} (k : Sole s) (o : Owned s)
    (hg : TakesFree thread s a) (h : Effect thread s a t) : Sole t := by
  cases h with
  | fails h => exact absurd h (k.not_fails o)
  | @enters w i hpc hi =>
    refine k.engage (w := w) (f := i) (r := { cb := none, origin := .idle })
      (not_engages (by rw [hpc]; rfl)) k.fault rfl rfl (fun _ h => by cases h) trivial
      (fun w' hw => ⟨fun h => (o.nobody hi w').1 h.1, fun h => (o.nobody hi w').1 ?_⟩)
      (fun _ => ⟨rfl, by simp⟩) (fun _ h => by cases h) (fun _ _ _ => rfl)
      (fun i' h => .inl (Option.some.inj h).symm) (fun _ _ => by simp)
    have hat := h.1
    simpa [State.pc, hw] using hat
  | creates hf => exact k.create o hf _ _
  | schedules hok => exact k.congr rfl rfl rfl
  | scans hpc hx => exact k.scans o hg hpc hx _
  | runs hpc hrun => exact k.runs hpc hrun
  | resets hpc hrun hcb hown hr hreset => exact k.resets o hpc hrun hown hreset
  | makes hpc hrun hcb hown hf => exact k.makes o hpc hrun hf
  | @discards w g ft hpc hrun hcb =>
    exact k.goes (not_engages_of_runnable hpc hrun) rfl _
  | @exits w g i hpc hown hterm =>
    exact k.goes (not_engages (by rw [hpc]; rfl)) rfl _
  | idles hpc hown hterm => exact k.idles o hpc hown hterm _
  | rewrites hpc hr h hthrew hact => exact k.rewrites o hpc hr h hthrew _
  | @backs w g kd f hpc =>
    have he := engages_inside hpc
    obtain ⟨r, hr, hstands⟩ := k.here hpc
    exact k.advance he hr r k.fault rfl (update_put hr) id hstands .inl
  | @readies w g kd f r hpc hr hready hk =>
    have hsaved := k.stands_here hpc hr
    refine k.rest o hpc hr r k.fault rfl (update_put hr) .inl hsaved (by simp [hready]) .inl ?_
    exact leaves_cb _ _
  | @ends w g kd f r hpc hr hend hk =>
    have hsaved := k.stands_here hpc hr
    refine k.rest o hpc hr r k.fault rfl (update_put hr) .inl hsaved (fun hexec => ?_) .inl
      (.inr ⟨rfl, fun h => absurd h hk⟩)
    simp [Fiber.ended, hexec] at hend
  | @empties w g f r hpc hr hend =>
    exact k.rest o hpc hr { r with cb := none, saved := true, state := .init } k.fault rfl rfl
      (fun _ => .inr rfl) rfl (by simp) (fun h => by cases h) (.inr ⟨rfl, fun _ => rfl⟩)
  | @checks w g kd f r hpc hr hready hend =>
    have he := engages_inside hpc
    have hsaved := k.stands_here hpc hr
    exact k.advance he hr r k.fault rfl (update_put hr) id ⟨hsaved, hend⟩ .inl
  | @holds w g kd f r hpc hr =>
    have hstands := k.stands_here hpc hr
    refine k.rest o hpc hr { r with state := .hold } k.fault rfl rfl (fun h => ?_) hstands.1 (by simp)
      (fun h => by cases h) (leaves_cb _ _)
    cases hstands.2.symm.trans h

/-! ### Every reachable state -/

theorem sole_reachable {thread : ω → Int} {acts : List (Act ω φ κ)}
    (hm : Meets (step thread) (TakesFree thread) start acts)
    (h : run (step thread) start acts = some s) : Owned s ∧ Sole s :=
  run_invariant (P := fun s => Owned s ∧ Sole s)
    (fun _ _ _ k hg h => ⟨k.1.step hg (step_effect h), k.2.step k.1 hg (step_effect h)⟩)
    ⟨start_owned, start_sole⟩ hm h

/-- **A fiber runs on one worker at a time**, is switched to only with its context saved,
and fails no assertion, in every run whose scans take free fibers. -/
theorem alone_reachable (thread : ω → Int) (acts : List (Act ω φ κ)) (s : State ω φ κ)
    (hm : Meets (step thread) (TakesFree thread) start acts)
    (h : run (step thread) start acts = some s) :
    (∀ w w' st st' k k' f, s.pc w = .inside st k f → s.pc w' = .inside st' k' f → w = w') ∧
    (∀ w k f, s.pc w = .inside .entered k f → ∃ r, s.fiber f = some r ∧ r.saved = true) ∧
    s.fault = none := by
  obtain ⟨-, k⟩ := sole_reachable hm h
  refine ⟨fun w w' st st' kd kd' f hpc hpc' => ?_, fun w kd f hpc => ?_, k.fault⟩
  · exact k.unique w w' f (engages_inside hpc) (engages_inside hpc')
  · obtain ⟨r, hr, hsaved, -⟩ := k.here hpc
    exact ⟨r, hr, hsaved⟩

end

/-- Fiber 1 is queued twice and two workers take it. -/
def twiceActs : List (Act (Fin 2) Nat Nat) :=
  [.enter 0 10, .enter 1 11, .create 1 7, .schedule [{ fiber := some 1 }, { fiber := some 1 }],
    .work 0 20, .work 1 20, .work 0 20, .work 1 20, .work 0 20, .work 1 20]

/-- Fiber 1 is queued while it runs, and yields as READY. -/
def readyActs : List (Act (Fin 2) Nat Nat) :=
  [.enter 0 10, .enter 1 11, .create 1 7, .schedule [{ fiber := some 1 }], .work 0 20, .work 0 20,
    .work 0 20, .work 0 20, .schedule [{ fiber := some 1 }], .yieldToReady 0, .work 1 20, .work 1 20,
    .work 1 20, .work 1 20]

/-- The second worker fails the assertion of `swapIn`, or switches to a context that is not
saved. -/
theorem taken_twice :
    (∃ s, run (step fun w : Fin 2 => w.val) start twiceActs = some s ∧ s.fault = some .assertion) ∧
    ∃ s, run (step fun w : Fin 2 => w.val) start readyActs = some s ∧ s.fault = some .unsaved :=
  ⟨⟨_, rfl, rfl⟩, _, rfl, rfl⟩

/-- Fiber 1 yields as READY and goes on on the other worker. -/
def handedActs : List (Act (Fin 2) Nat Nat) :=
  [.enter 0 10, .enter 1 11, .create 1 7, .schedule [{ fiber := some 1 }], .work 0 20, .work 0 20,
    .work 0 20, .work 0 20, .yieldToReady 0, .work 0 20, .work 0 20, .work 0 20, .work 1 20,
    .work 1 20, .work 1 20]

theorem alone_reachable_sample : ∃ s, run (step fun w : Fin 2 => w.val) start handedActs = some s ∧
    (∀ w w' st st' k k' f, s.pc w = .inside st k f → s.pc w' = .inside st' k' f → w = w') ∧
    (∀ w k f, s.pc w = .inside .entered k f → ∃ r, s.fiber f = some r ∧ r.saved = true) ∧
    s.fault = none :=
  ⟨_, rfl, alone_reachable (fun w : Fin 2 => w.val) handedActs _ (by decide) rfl⟩

end ShioSylar.Scheduler.Workers
