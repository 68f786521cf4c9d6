import ShioSylar.Scheduler.Stopping
import ShioSylar.Scheduler.Executing

/-! What the last worker leaves behind.

A worker leaves `run` from a scan that took nothing, with its `idle_fiber` at its end. Whoever
left before it, the last one has scanned after everybody else was done, and what it passed over
may not run on any thread but the one it is pinned to (`Drains`). -/
namespace ShioSylar.Scheduler.Workers
open Lib

variable {ω φ κ : Type}

/-- A worker has left `run`, or is about to. -/
def State.Done (s : State ω φ κ) (w : ω) : Prop :=
  s.pc w = .exited ∨ s.pc w = .chosen none ∧
    ∃ i, (s.worker w).idleFiber = some i ∧ (s.fiber i).any (·.state = .term) = true

/-- Nobody is in `run` who will scan again. -/
def State.Deserted (s : State ω φ κ) : Prop := ∀ w, s.pc w = .out ∨ s.Done w

structure Drains (s : Stopper ω φ κ) : Prop where
  /-- An `idle_fiber` ends when `stop` has been called. -/
  ended : ∀ f r, s.state.fiber f = some r → r.origin = .idle → r.ended = true → s.autoStop = true
  exited : ∀ w, s.state.pc w = .exited → s.autoStop = true
  pinned : (∃ w, s.state.Done w) → s.state.Deserted → ∀ it ∈ s.state.fibers, it.thread ≠ -1

theorem init_drains : Drains (Stopper.init : Stopper ω φ κ) :=
  ⟨fun _ _ h => (by cases h), fun _ h => (by cases h), fun _ _ _ h => (by cases h)⟩

section
variable {s t : State ω φ κ} {w : ω}

theorem done_at {pc : Pc φ κ} (hpc : s.pc w = pc) (hdone : s.Done w) : pc = .exited ∨ pc = .chosen none := by
  obtain h | ⟨h, -⟩ := hdone
  · exact .inl (hpc.symm.trans h)
  · exact .inr (hpc.symm.trans h)

/-- Who is anywhere else in `run` scans again. -/
theorem not_deserted {pc : Pc φ κ} (hpc : s.pc w = pc) (hout : pc ≠ .out) (hexited : pc ≠ .exited)
    (hchosen : pc ≠ .chosen none) : ¬ s.Deserted := by
  intro h
  obtain h | h := h w
  · exact hout (hpc.symm.trans h)
  · obtain h | h := done_at hpc h
    · exact hexited h
    · exact hchosen h

theorem Done.congr (hdone : t.Done w) (hw : t.worker w = s.worker w)
    (hterm : ∀ i, (s.worker w).idleFiber = some i → (t.fiber i).any (·.state = .term) = true →
      (s.fiber i).any (·.state = .term) = true) : s.Done w := by
  have hpc := pc_congr hw
  refine hdone.imp (fun h => hpc.symm.trans h) ?_
  rintro ⟨hc, i, hi, hend⟩
  rw [hw] at hi
  exact ⟨hpc.symm.trans hc, i, hi, hterm i hi hend⟩

variable [DecidableEq ω] [DecidableEq φ] {thread : ω → Int} {a : Act ω φ κ}

/-- An `idle_fiber` comes to its end only from `idle`. -/
theorem idle_ended_before (x : Executing s) (e : Effect thread s a t) (hleaves : a.leavesIdle s = false) {f : φ}
    {r : Fiber κ} (hr : t.fiber f = some r) (hidle : r.origin = .idle) (hend : r.ended = true) :
    ∃ r', s.fiber f = some r' ∧ r'.origin = .idle ∧ r'.ended = true := by
  -- a step that puts a record that has not ended
  have hput : ∀ {g : φ} {r₀ : Fiber κ}, r₀.ended = false → t.fiber = Function.update s.fiber g (some r₀) →
      ∃ r', s.fiber f = some r' ∧ r'.origin = .idle ∧ r'.ended = true := by
    intro g r₀ hnot hfiber
    rw [hfiber] at hr
    by_cases hg : f = g
    · rw [hg, Function.update_self] at hr
      cases hr
      cases hnot.symm.trans hend
    · rw [Function.update_of_ne hg] at hr
      exact ⟨r, hr, hidle, hend⟩
  cases e with
  | fails | schedules | scans | runs | discards | exits | idles | backs | readies | ends | checks =>
    exact ⟨r, hr, hidle, hend⟩
  | enters | creates | makes | empties | holds => exact hput (by simp [Fiber.ended]) rfl
  | @resets _ _ ft cb h r₀ r' hpc hrun hcb hown hr₀ hreset =>
    obtain ⟨-, hinit, -⟩ := reset_origin hreset
    exact hput (by simp [Fiber.ended, hinit]) rfl
  | @rewrites _ w st st' kd g r₀ r' hpc hr₀ h hthrew hact =>
    have hfiber : Function.update s.fiber g (some r') f = some r := hr
    by_cases hg : f = g
    · subst hg
      rw [Function.update_self] at hfiber
      cases hfiber
      have horigin : r₀.origin = .idle := by rw [← h.origin]; exact hidle
      -- the code of an `idle_fiber` is not left here
      have hnot : st = .running → kd ≠ .idle := by
        rintro rfl rfl
        cases hact with
        | ready ha =>
          rw [ha] at hleaves
          simp [Act.leavesIdle, hpc] at hleaves
        | other ha =>
          obtain rfl | ⟨threw, rfl⟩ := ha
          · simp [Act.leavesIdle, hpc] at hleaves
          · simp [Act.leavesIdle, hpc] at hleaves
        | work _ hst => exact hst rfl
      have hfalse : st = .running → False := by
        intro hst
        have hshared := x.task w f (by rw [hpc, Pc.task, if_neg (hnot hst)])
        simp [State.shared, hr₀, horigin] at hshared
      cases h with
      | swapIn => simp [Fiber.ended] at hend
      | switchTo => exact ⟨r₀, hr₀, horigin, hend⟩
      | switchFrom => exact ⟨r₀, hr₀, horigin, hend⟩
      | yieldToHold | yieldToReady | term | except => exact (hfalse rfl).elim
    · rw [Function.update_of_ne hg] at hfiber
      exact ⟨r, hfiber, hidle, hend⟩

/-- A worker leaves `run` only with an `idle_fiber` at its end. -/
theorem exited_before (aw : Awaited s) (e : Effect thread s a t) (hex : t.pc w = .exited) :
    s.pc w = .exited ∨ ∃ i r, s.fiber i = some r ∧ r.origin = .idle ∧ r.ended = true := by
  -- a worker that goes somewhere else is not the one
  have hgoes : ∀ {v : ω} {x : Worker φ κ}, t.worker = Function.update s.worker v x → x.pc ≠ .exited →
      s.pc w = .exited := by
    intro v x hw hx
    by_cases hwv : w = v
    · subst hwv
      exact absurd ((pc_update_self hw).symm.trans hex) hx
    · exact (pc_update_of_ne hw hwv).symm.trans hex
  cases e with
  | fails | creates | schedules => exact .inl hex
  | @exits v g i hpc hown hterm =>
    by_cases hwv : w = v
    · have horigin := aw.idleFiber v i hown
      obtain ⟨r, hr, ho⟩ := Option.map_eq_some_iff.mp horigin
      refine .inr ⟨i, r, hr, ho, ?_⟩
      rw [hr] at hterm
      have hstate : r.state = .term := by simpa using hterm
      simp [Fiber.ended, hstate]
    · exact .inl ((pc_update_of_ne rfl hwv).symm.trans hex)
  | enters | scans | runs | resets | makes | discards | idles | rewrites | backs | readies | ends | empties |
    checks | holds => exact .inl (hgoes rfl (by simp))

omit [DecidableEq φ] in
/-- What the last worker passes over is pinned to another thread. -/
theorem scan_pinned (x : Executing s) (hpc : s.pc w = .top) {r : Fetched φ κ}
    (hr : fetch (thread w) s.isExec s.fibers = some r) (hnone : r.task = none)
    (hothers : ∀ w' st kd f, w' ≠ w → s.pc w' ≠ .inside st kd f) : ∀ it ∈ s.fibers, it.thread ≠ -1 := by
  intro it hit hunpinned
  obtain ⟨r', hr', hspec⟩ := @fetch_spec _ _ (thread w) s.isExec s.fibers fun it hit => (x.queue it hit).1
  cases hr.symm.trans hr'
  rw [hnone] at hspec
  refine hspec.2 it hit ⟨.inl hunpinned, ?_⟩
  rw [Bool.eq_false_iff]
  intro hexec
  obtain ⟨f, -, hf⟩ := (Option.any_eq_true _ _).mp hexec
  obtain ⟨w', st, kd, hin⟩ := x.exec f hf
  by_cases hw : w' = w
  · subst hw
    cases hpc.symm.trans hin
  · exact hothers w' st kd f hw hin

/-- Where everybody has left, `m_fibers` holds nothing for every thread. -/
theorem pinned_step {s : Stopper ω φ κ} (k : Drains s) (x : Executing s.state) (aw : Awaited s.state)
    (e : Effect thread s.state a t)
    (hschedule : ∀ nodes, a = .schedule nodes → s.autoStop = false ∨ ∃ w st kd f, s.state.pc w = .inside st kd f)
    (hdone : ∃ w, t.Done w) (hall : t.Deserted) : ∀ it ∈ t.fibers, it.thread ≠ -1 := by
  -- a worker that goes on in `run` scans again
  have hgoes : ∀ {v : ω} {x : Worker φ κ}, t.worker = Function.update s.state.worker v x → x.pc ≠ .out →
      x.pc ≠ .exited → x.pc ≠ .chosen none → False := fun hw h₁ h₂ h₃ => not_deserted (pc_update_self hw) h₁ h₂ h₃ hall
  -- where the same workers are done
  have hsame : (∀ w, t.Done w → s.state.Done w) → (∀ w, t.pc w = .out → s.state.pc w = .out) →
      t.fibers = s.state.fibers → ∀ it ∈ t.fibers, it.thread ≠ -1 := by
    intro hd ho hf
    obtain ⟨w, hw⟩ := hdone
    rw [hf]
    exact k.pinned ⟨w, hd w hw⟩ fun w => (hall w).imp (ho w) (hd w)
  cases e with
  | fails =>
    exact hsame (fun w h => h.imp id fun h => h) (fun _ h => h) rfl
  | @creates f cb hf =>
    refine hsame (fun w h => ?_) (fun _ h => h) rfl
    refine Done.congr h rfl fun i _ hterm => ?_
    have hterm : (Function.update s.state.fiber f (some { cb := some cb, origin := .user }) i).any
        (·.state = .term) = true := hterm
    by_cases hi : i = f
    · rw [hi, Function.update_self] at hterm
      simp at hterm
    · rwa [Function.update_of_ne hi] at hterm
  | @schedules nodes hok =>
    obtain hauto | ⟨w, st, kd, f, hin⟩ := hschedule nodes rfl
    · obtain ⟨w, hw⟩ := hdone
      have hw : s.state.Done w := hw
      obtain hex | ⟨-, i, hi, hterm⟩ := hw
      · cases hauto.symm.trans (k.exited w hex)
      · obtain ⟨r, hr, ho⟩ := Option.map_eq_some_iff.mp (aw.idleFiber w i hi)
        rw [hr] at hterm
        have hstate : r.state = .term := by simpa using hterm
        cases hauto.symm.trans (k.ended i r hr ho (by simp [Fiber.ended, hstate]))
    · exact absurd hall (not_deserted (w := w) hin (by simp) (by simp) (by simp))
  | @scans v g r hpc hr =>
    cases htask : r.task with
    | some it =>
      refine (hgoes rfl (by simp) (by simp) ?_).elim
      rw [htask]
      simp
    | none =>
      have hothers : ∀ w' st kd f, w' ≠ v → s.state.pc w' ≠ .inside st kd f := by
        intro w' st kd f hne hin
        exact not_deserted ((pc_update_of_ne rfl hne).trans hin) (by simp) (by simp) (by simp) hall
      have hfibers := fetch_none hr htask
      show ∀ it ∈ r.fibers, _
      rw [hfibers]
      exact scan_pinned x hpc hr htask hothers
  | @exits v g i hpc hown hterm =>
    have hd : s.state.Done v := .inr ⟨hpc, i, hown, hterm⟩
    refine hsame (fun w h => ?_) (fun w h => ?_) rfl
    · by_cases hw : w = v
      · rw [hw]
        exact hd
      · exact Done.congr h (Function.update_of_ne hw ..) fun _ _ h => h
    · by_cases hw : w = v
      · subst hw
        cases (pc_update_self rfl).symm.trans h
      · exact (pc_update_of_ne rfl hw).symm.trans h
  | enters | runs | resets | makes | discards | idles | rewrites | backs | readies | ends | empties | checks |
    holds => exact (hgoes rfl (by simp) (by simp) (by simp)).elim

/-- A yield as HOLD leaves the records as they are. -/
theorem yieldToHold_fiber (h : s.leave w (·.yieldToHold) = some t) : t.fiber = s.fiber := by
  unfold State.leave at h
  split at h
  · obtain ⟨r, hr, ⟨r', ho, rfl⟩ | ⟨e, ho, rfl⟩⟩ := modify_effect h
    · simp only [Fiber.yieldToHold] at ho
      split at ho <;> cases ho
      show Function.update s.fiber _ (some r) = s.fiber
      rw [← hr, Function.update_eq_self]
    · rfl
  · cases h

/-- A step of the workers, where a call of `schedule` comes before `stop` or from a fiber. -/
theorem Drains.step {s t : Stopper ω φ κ} {a : StopAct ω φ κ} (k : Drains s) (x : Executing s.state)
    (aw : Awaited s.state) (h : Stopper.step thread s a = some t)
    (hschedule : ∀ nodes, a = .worker (.schedule nodes) →
      s.autoStop = false ∨ ∃ w st kd f, s.state.pc w = .inside st kd f) : Drains t := by
  -- a step that keeps the flags
  have hworker : ∀ {b : Act ω φ κ} {u : State ω φ κ}, Effect thread s.state b u →
      (∀ f r, u.fiber f = some r → r.origin = .idle → r.ended = true → s.autoStop = true) →
      (∀ nodes, b = .schedule nodes → s.autoStop = false ∨ ∃ w st kd f, s.state.pc w = .inside st kd f) →
      Drains { s with state := u } := by
    intro b u e hended hs
    refine ⟨hended, fun w hex => ?_, pinned_step k x aw e hs⟩
    obtain hold | ⟨i, r, hr, hidle, hend⟩ := exited_before aw e hex
    · exact k.exited w hold
    · exact k.ended i r hr hidle hend
  cases a with
  | start =>
    cases h
    split
    · exact ⟨k.ended, k.exited, k.pinned⟩
    · exact k
  | autoStop =>
    cases h
    exact ⟨fun _ _ _ _ _ => rfl, fun _ _ => rfl, k.pinned⟩
  | stop =>
    cases h
    exact ⟨k.ended, k.exited, k.pinned⟩
  | idle w =>
    simp only [Stopper.step] at h
    split at h
    · obtain ⟨u, hu, rfl⟩ := Option.map_eq_some_iff.mp h
      by_cases hstop : s.stopping = true
      · rw [if_pos hstop] at hu
        have hauto : s.autoStop = true := by
          simp only [Stopper.stopping, Bool.and_eq_true] at hstop
          exact hstop.1.1.1
        exact hworker (step_effect hu) (fun _ _ _ _ _ => hauto) (by simp)
      · rw [if_neg hstop] at hu
        refine hworker (step_effect hu) (fun f r hr hidle hend => ?_) (by simp)
        rw [yieldToHold_fiber (Option.ite_none_right_eq_some.mp hu).2] at hr
        exact k.ended f r hr hidle hend
    · cases h
  | worker b =>
    obtain ⟨hleaves, h⟩ := Option.ite_none_left_eq_some.mp h
    obtain ⟨u, hu, rfl⟩ := Option.map_eq_some_iff.mp h
    have e := step_effect hu
    refine hworker e (fun f r hr hidle hend => ?_) fun nodes hb => hschedule nodes (by rw [hb])
    obtain ⟨r', hr', hidle', hend'⟩ := idle_ended_before x e (by simpa using hleaves) hr hidle hend
    exact k.ended f r' hr' hidle' hend'

end

end ShioSylar.Scheduler.Workers
