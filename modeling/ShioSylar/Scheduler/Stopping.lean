import ShioSylar.Scheduler.Counts
import ShioSylar.Scheduler.Owned

/-! When a scheduler stops (`Scheduler::start`, `stop`, `stopping`, `idle`).

`stopping` is one step: it holds the mutex over the whole test, so `m_fibers` is at the read
of the counter what it was when it was read. A worker that comes back from a READY fiber lowers
`m_activeThreadCount` before it puts the fiber back, and in between the test holds
(`stops_early`). There is no other way for work to hide from it (`stopping_iff`), whatever
the run: `Awaited` is where a READY fiber can be. -/
namespace ShioSylar.Scheduler.Workers
open Lib

variable {ω φ κ : Type}

structure Stopper (ω φ κ : Type) where
  state : State ω φ κ
  /-- `m_stopping`. -/
  isStopping : Bool := true
  autoStop : Bool := false

inductive StopAct (ω φ κ : Type) where
  | start
  /-- `m_autoStop = true` of `stop`. -/
  | autoStop
  /-- `m_stopping = true` of `stop`. -/
  | stop
  /-- The `idle_fiber` of a worker tests `stopping`. -/
  | idle (w : ω)
  | worker (a : Act ω φ κ)

/-- The step ends a stretch of an `idle_fiber`. -/
def Act.leavesIdle (s : State ω φ κ) : Act ω φ κ → Bool
  | .yieldToHold w | .yieldToReady w | .finish w _ =>
    match s.pc w with
    | .inside .running .idle _ => true
    | _ => false
  | _ => false

namespace Stopper

def init : Stopper ω φ κ := { state := Workers.start }

def stopping (s : Stopper ω φ κ) : Bool :=
  s.autoStop && s.isStopping && s.state.fibers.isEmpty && s.state.activeThreadCount = 0

/-- `idle` ends when `stopping` holds, and yields as HOLD until then. -/
def step [DecidableEq ω] [DecidableEq φ] (thread : ω → Int) (s : Stopper ω φ κ) :
    StopAct ω φ κ → Option (Stopper ω φ κ)
  | .start => some (if s.isStopping then { s with isStopping := false } else s)
  | .autoStop => some { s with autoStop := true }
  | .stop => some { s with isStopping := true }
  | .idle w =>
    match s.state.pc w with
    | .inside .running .idle _ =>
      (Workers.step thread s.state (if s.stopping then .finish w false else .yieldToHold w)).map
        fun t => { s with state := t }
    | _ => none
  | .worker a =>
    if a.leavesIdle s.state then none
    else (Workers.step thread s.state a).map fun t => { s with state := t }

end Stopper

/-! ### Where a READY fiber is -/

/-- A task that is READY. -/
def State.Ready (s : State ω φ κ) (f : φ) : Prop :=
  s.shared f = true ∧ (s.fiber f).any (·.state = .ready) = true

/-- The fiber that a worker has taken and not switched to, or that it comes back from. -/
def Pc.held : Pc φ κ → Option φ
  | .chosen ft => ft.bind (·.fiber)
  | .inside st k f =>
    if k ≠ .idle ∧ (st = .entry ∨ st = .leaving ∨ st = .back ∨ st = .check) then some f else none
  | _ => none

structure Awaited (s : State ω φ κ) : Prop where
  ready : ∀ f, s.Ready f → (∃ it ∈ s.fibers, it.fiber = some f) ∨ ∃ w, (s.pc w).held = some f
  idle : ∀ w st f, s.pc w = .inside st .idle f → s.origin f = some .idle
  idleFiber : ∀ w i, (s.worker w).idleFiber = some i → s.origin i = some .idle

theorem start_awaited : Awaited (start : State ω φ κ) :=
  ⟨fun _ h => (nomatch h.1), fun _ _ _ h => (nomatch h), fun _ _ h => (nomatch h)⟩

section
variable {s t : State ω φ κ} {w : ω} {f : φ}

/-- A worker moves: the READY fibers it had to do with are queued or held. -/
theorem Awaited.move [DecidableEq ω] (k : Awaited s) {x : Worker φ κ}
    (hw : t.worker = Function.update s.worker w x)
    (horigin : ∀ f o, s.origin f = some o → t.origin f = some o)
    (hready : ∀ f, t.Ready f → s.Ready f ∨ x.pc.held = some f)
    (hqueue : ∀ it ∈ s.fibers, it ∈ t.fibers ∨ ∀ f, it.fiber = some f → x.pc.held = some f)
    (hheld : ∀ f, (s.pc w).held = some f → t.Ready f →
      x.pc.held = some f ∨ ∃ it ∈ t.fibers, it.fiber = some f)
    (hidle : ∀ st f, x.pc = .inside st .idle f → t.origin f = some .idle)
    (hown : ∀ i, x.idleFiber = some i → t.origin i = some .idle) : Awaited t := by
  have hself := pc_update_self hw
  refine ⟨fun f hf => ?_, fun w' st f h => ?_, fun w' i h => ?_⟩
  · have hnew : x.pc.held = some f → ∃ w, (t.pc w).held = some f := fun h => ⟨w, by rw [hself, h]⟩
    obtain hold | hx := hready f hf
    · obtain ⟨it, hit, hitf⟩ | ⟨w', hw'⟩ := k.ready f hold
      · obtain hit | hx := hqueue it hit
        · exact .inl ⟨it, hit, hitf⟩
        · exact .inr (hnew (hx f hitf))
      · by_cases hww : w' = w
        · subst hww
          exact (hheld f hw' hf).elim (fun h => .inr (hnew h)) .inl
        · exact .inr ⟨w', by rw [pc_update_of_ne hw hww, hw']⟩
    · exact .inr (hnew hx)
  · by_cases hww : w' = w
    · subst hww
      exact hidle st f (hself ▸ h)
    · exact horigin f _ (k.idle w' st f (pc_update_of_ne hw hww ▸ h))
  · by_cases hww : w' = w
    · subst hww
      rw [hw, Function.update_self] at h
      exact hown i h
    · rw [hw, Function.update_of_ne hww] at h
      exact horigin i _ (k.idleFiber w' i h)

/-- No worker moves. -/
theorem Awaited.frame (k : Awaited s) (hw : t.worker = s.worker)
    (horigin : ∀ f o, s.origin f = some o → t.origin f = some o) (hready : ∀ f, t.Ready f → s.Ready f)
    (hqueue : ∀ it ∈ s.fibers, it ∈ t.fibers) : Awaited t := by
  have hpc : ∀ w, t.pc w = s.pc w := fun w => pc_congr (congrFun hw w)
  refine ⟨fun f hf => ?_, fun w st f h => ?_, fun w i h => ?_⟩
  · obtain ⟨it, hit, hitf⟩ | ⟨w, hw⟩ := k.ready f (hready f hf)
    · exact .inl ⟨it, hqueue it hit, hitf⟩
    · exact .inr ⟨w, by rw [hpc, hw]⟩
  · exact horigin f _ (k.idle w st f (hpc w ▸ h))
  · rw [hw] at h
    exact horigin i _ (k.idleFiber w i h)

/-- The fibers other than one are READY where they were. -/
theorem ready_put [DecidableEq φ] {r : Fiber κ} (hf : t.fiber = Function.update s.fiber f (some r))
    (hr : r.state ≠ .ready) : ∀ f', t.Ready f' → f' ≠ f ∧ s.Ready f' := by
  rintro f' ⟨hs, hready⟩
  have hne : f' ≠ f := by
    rintro rfl
    rw [hf, Function.update_self] at hready
    exact hr (by simpa using hready)
  refine ⟨hne, ?_, ?_⟩
  · rwa [State.shared, hf, Function.update_of_ne hne] at hs
  · rwa [hf, Function.update_of_ne hne] at hready

theorem ready_state {r : Fiber κ} (hr : s.fiber f = some r) (h : s.Ready f) : r.state = .ready := by
  have hready := h.2
  rw [hr] at hready
  simpa using hready

/-- A worker that comes back holds its fiber. -/
theorem held_inside {st : Stage} {kd : Kind} {f' : φ} (h : (Pc.inside st kd f : Pc φ κ).held = some f') :
    f' = f ∧ kd ≠ .idle ∧ (st = .entry ∨ st = .leaving ∨ st = .back ∨ st = .check) := by
  simp only [Pc.held] at h
  split at h
  · rename_i hheld
    cases h
    exact ⟨rfl, hheld⟩
  · cases h

/-- A READY fiber has not ended: it is the one to switch to. -/
theorem ready_runnable {ft : FiberAndThread φ κ} (hrun : s.runnable (some ft) = none)
    (hf : ft.fiber = some f) : ¬ s.Ready f := by
  rintro ⟨-, hready⟩
  simp only [State.runnable, Option.bind_some, hf] at hrun
  cases hr : s.fiber f with
  | none =>
    rw [hr] at hready
    cases hready
  | some r =>
    simp only [hr, Option.any_some, decide_eq_true_eq] at hready
    simp [hr, Fiber.ended, hready] at hrun

variable [DecidableEq ω] [DecidableEq φ]

/-- A worker takes its fiber through a stage. -/
theorem Awaited.rewrites (k : Awaited s) {st st' : Stage} {kd : Kind} {r r' : Fiber κ}
    (hpc : s.pc w = .inside st kd f) (hr : s.fiber f = some r) (h : Rewrites st st' r r') (b : φ → Bool) :
    Awaited { (s.put f r').goto w (.inside st' kd f) with woken := b } := by
  set t : State ω φ κ := { (s.put f r').goto w (.inside st' kd f) with woken := b }
  have hself : t.fiber f = some r' := Function.update_self ..
  have horigin := put_origin_of_eq hr h.origin
  have hother : ∀ {f'}, f' ≠ f → t.Ready f' → s.Ready f' := by
    intro f' hne hf
    have hfib : t.fiber f' = s.fiber f' := Function.update_of_ne hne ..
    rwa [State.Ready, State.shared, hfib] at hf
  have hold : r'.state = r.state → t.Ready f → s.Ready f := by
    intro hs hf
    have hready := ready_state hself hf
    have hshared := hf.1
    rw [State.shared, hself] at hshared
    simp only [State.Ready, State.shared, hr, Option.any_some, decide_eq_true_eq]
    exact ⟨by simpa [h.origin] using hshared, hs ▸ hready⟩
  refine k.move rfl horigin (fun f' hf => ?_) (fun it hit => .inl hit) (fun f' hheld hf => ?_) (fun st f' h => ?_)
    (fun i hi => horigin i _ (k.idleFiber w i hi))
  · by_cases hne : f' = f
    · subst hne
      have hready := ready_state hself hf
      cases h with
      | swapIn hne => cases hready
      | switchTo hsaved => exact .inl (hold rfl hf)
      | yieldToHold hexec => exact .inl (hold rfl hf)
      | yieldToReady hexec =>
        refine .inr ?_
        have hk : kd ≠ .idle := by
          rintro rfl
          obtain ⟨o, ho, hne⟩ := shared_iff.mp hf.1
          cases (horigin f' _ (k.idle w .running f' hpc)).symm.trans ho
          exact hne rfl
        simp [Pc.held, hk]
      | term => cases hready
      | except => cases hready
      | switchFrom => exact .inl (hold rfl hf)
    · exact .inl (hother hne hf)
  · rw [hpc] at hheld
    obtain ⟨rfl, hk, hst⟩ := held_inside hheld
    have hready := ready_state hself hf
    cases h with
    | swapIn hne => cases hready
    | switchFrom => simp [Pc.held, hk]
    | switchTo | yieldToHold | yieldToReady | term | except => simp at hst
  · cases h
    exact horigin f _ (k.idle w _ f hpc)

/-- A step keeps where the READY fibers are. -/
theorem Awaited.step {thread : ω → Int} {a : Act ω φ κ} (k : Awaited s) (h : Effect thread s a t) :
    Awaited t := by
  cases h with
  | fails h => exact k.frame rfl (fun _ _ h => h) (fun _ h => h) fun _ h => h
  | @enters w i hpc hi =>
    refine k.move rfl (put_origin_of_none hi) (fun f hf => .inl (ready_put rfl (by simp) f hf).2)
      (fun it hit => .inl hit) (fun f hheld => ?_) (by simp) (fun i' h => ?_)
    · rw [hpc] at hheld
      cases hheld
    · cases h
      simp [State.origin, State.put]
  | creates hf =>
    exact k.frame rfl (put_origin_of_none hf) (fun f hf => (ready_put rfl (by simp) f hf).2) fun _ h => h
  | @schedules nodes hok =>
    refine k.frame rfl (fun _ _ h => h) (fun _ h => h) fun it hit => ?_
    rw [State.schedule, scheduleAll_eq]
    exact List.mem_append_left _ hit
  | @scans w g x hpc hx =>
    refine k.move rfl (fun _ _ h => h) (fun f hf => .inl hf) (fun it hit => ?_) (fun f hheld => ?_) (by simp)
      (k.idleFiber w)
    · refine (fetch_keeps hx it hit).imp_right fun htask f hf => ?_
      show x.task.bind _ = _
      rw [htask]
      exact hf
    · rw [hpc] at hheld
      cases hheld
  | @runs w g ft f hpc hrun =>
    refine k.move rfl (fun _ _ h => h) (fun f hf => .inl hf) (fun it hit => .inl hit)
      (fun f' hheld hf' => .inl ?_) (by simp) (k.idleFiber w)
    have hf : ft.fiber = some f := (Option.filter_eq_some_iff.mp hrun).1
    rw [hpc] at hheld
    cases hf.symm.trans hheld
    simp [Pc.held]
  | @resets w g ft cb h r r' hpc hrun hcb hown hr hreset =>
    obtain ⟨horigin, hinit, -⟩ := reset_origin hreset
    refine k.move rfl (put_origin_of_eq hr horigin) (fun f hf => .inl (ready_put rfl (by simp [hinit]) f hf).2)
      (fun it hit => .inl hit) (fun f hheld hf => ?_) (by simp) (fun i hi => put_origin_of_eq hr horigin i _ (k.idleFiber w i hi))
    rw [hpc] at hheld
    exact absurd (ready_put rfl (by simp [hinit]) f hf).2 (ready_runnable hrun hheld)
  | @makes w g ft cb hpc hrun hcb hown hg =>
    refine k.move rfl (put_origin_of_none hg) (fun f hf => .inl (ready_put rfl (by simp) f hf).2)
      (fun it hit => .inl hit) (fun f hheld hf => ?_) (by simp) (fun i hi => put_origin_of_none hg i _ (k.idleFiber w i hi))
    rw [hpc] at hheld
    exact absurd (ready_put rfl (by simp) f hf).2 (ready_runnable hrun hheld)
  | @discards w g ft hpc hrun hcb =>
    refine k.move rfl (fun _ _ h => h) (fun f hf => .inl hf) (fun it hit => .inl hit)
      (fun f hheld hf => ?_) (by simp) (k.idleFiber w)
    rw [hpc] at hheld
    exact absurd hf (ready_runnable hrun hheld)
  | @exits w g i hpc hown hterm =>
    refine k.move rfl (fun _ _ h => h) (fun f hf => .inl hf) (fun it hit => .inl hit)
      (fun f hheld => ?_) (by simp) (k.idleFiber w)
    rw [hpc] at hheld
    cases hheld
  | @idles w g i hpc hown hterm =>
    refine k.move rfl (fun _ _ h => h) (fun f hf => .inl hf) (fun it hit => .inl hit)
      (fun f hheld => ?_) (fun st f h => ?_) (k.idleFiber w)
    · rw [hpc] at hheld
      cases hheld
    · cases h
      exact k.idleFiber w _ hown
  | rewrites hpc hr h hthrew hact => exact k.rewrites hpc hr h _
  | @backs w g kd f hpc =>
    refine k.move rfl (fun _ _ h => h) (fun f hf => .inl hf) (fun it hit => .inl hit)
      (fun f' hheld _ => .inl ?_) (fun st f' h => ?_) (k.idleFiber w)
    · rw [hpc] at hheld
      simpa [Pc.held] using hheld
    · cases h
      exact k.idle w .back _ hpc
  | @readies w g kd f r hpc hr hready hk =>
    refine k.move rfl (fun _ _ h => h) (fun f hf => .inl hf) (fun it hit => .inl ?_)
      (fun f' hheld _ => .inr ⟨{ fiber := some f }, ?_, ?_⟩) (by simp) (k.idleFiber w)
    · show it ∈ scheduleAll _ _
      rw [scheduleAll_eq]
      exact List.mem_append_left _ hit
    · show _ ∈ scheduleAll _ _
      rw [scheduleAll_eq]
      simp [FiberAndThread.nonempty]
    · rw [hpc] at hheld
      simpa [Pc.held, hk] using hheld
  | @ends w g kd f r hpc hr hend hk =>
    refine k.move rfl (fun _ _ h => h) (fun f hf => .inl hf) (fun it hit => .inl hit)
      (fun f' hheld hf' => ?_) (by simp) (k.idleFiber w)
    rw [hpc] at hheld
    obtain ⟨rfl, -⟩ := held_inside hheld
    have hready := ready_state hr hf'
    simp [Fiber.ended, hready] at hend
  | @empties w g f r hpc hr hend =>
    have horigin : ∀ f' o, s.origin f' = some o →
        (s.put f { r with cb := none, saved := true, state := .init }).origin f' = some o :=
      put_origin_of_eq hr rfl
    refine k.move rfl horigin (fun f hf => .inl (ready_put rfl (by simp) f hf).2)
      (fun it hit => .inl hit) (fun f' hheld hf' => ?_) (by simp)
      (fun i hi => horigin i _ (k.idleFiber w i hi))
    rw [hpc] at hheld
    exact absurd (held_inside hheld).1 (ready_put rfl (by simp) f' hf').1
  | @checks w g kd f r hpc hr hready hend =>
    refine k.move rfl (fun _ _ h => h) (fun f hf => .inl hf) (fun it hit => .inl hit)
      (fun f' hheld hf' => ?_) (fun st f' h => ?_) (k.idleFiber w)
    · rw [hpc] at hheld
      obtain ⟨rfl, hk, -⟩ := held_inside hheld
      exact absurd (hready (ready_state hr hf')) hk
    · cases h
      exact k.idle w .check _ hpc
  | @holds w g kd f r hpc hr =>
    have horigin : ∀ f' o, s.origin f' = some o → (s.put f { r with state := .hold }).origin f' = some o :=
      put_origin_of_eq hr rfl
    refine k.move rfl horigin (fun f hf => .inl (ready_put rfl (by simp) f hf).2)
      (fun it hit => .inl hit) (fun f' hheld hf' => ?_) (by simp)
      (fun i hi => horigin i _ (k.idleFiber w i hi))
    rw [hpc] at hheld
    exact absurd (held_inside hheld).1 (ready_put rfl (by simp) f' hf').1

/-! ### Every reachable state -/

/-- No task is left that could run: none is queued, none is with a worker from the scan until
it is out of the fiber, and none is READY. -/
structure NoWork (s : State ω φ κ) : Prop where
  queued : s.fibers = []
  executing : ∀ w, (s.pc w).busy = false
  ready : ∀ f, ¬ s.Ready f

/-- A worker has lowered `m_activeThreadCount` and not yet put the READY fiber back. -/
def State.Between (s : State ω φ κ) (w : ω) (f : φ) : Prop :=
  ∃ k, s.pc w = .inside .check k f ∧ k ≠ .idle ∧ s.Ready f

theorem stopper_step {thread : ω → Int} {s t : Stopper ω φ κ} {a : StopAct ω φ κ}
    (h : Stopper.step thread s a = some t) :
    t.state = s.state ∨ ∃ b, Effect thread s.state b t.state := by
  cases a with
  | start =>
    cases h
    left
    split <;> rfl
  | autoStop =>
    cases h
    exact .inl rfl
  | stop =>
    cases h
    exact .inl rfl
  | idle w =>
    simp only [Stopper.step] at h
    split at h
    · obtain ⟨x, hx, rfl⟩ := Option.map_eq_some_iff.mp h
      exact .inr ⟨_, step_effect hx⟩
    · cases h
  | worker b =>
    obtain ⟨-, h⟩ := Option.ite_none_left_eq_some.mp h
    obtain ⟨x, hx, rfl⟩ := Option.map_eq_some_iff.mp h
    exact .inr ⟨b, step_effect hx⟩

theorem stopper_reachable {thread : ω → Int} {acts : List (StopAct ω φ κ)} {s : Stopper ω φ κ}
    (h : run (Stopper.step thread) Stopper.init acts = some s) : Counted s.state ∧ Awaited s.state := by
  refine run_preserves (P := fun s : Stopper ω φ κ => Counted s.state ∧ Awaited s.state)
    (fun s a t k h => ?_) ⟨start_counted, start_awaited⟩ h
  obtain heq | ⟨b, e⟩ := stopper_step h
  · rw [heq]
    exact k
  · exact ⟨k.1.step e, k.2.step e⟩

/-- **When `stopping` holds, no task is left** if and only if no worker is between lowering the
counter and putting a READY fiber back. -/
theorem stopping_iff (thread : ω → Int) (acts : List (StopAct ω φ κ)) (s : Stopper ω φ κ)
    (h : run (Stopper.step thread) Stopper.init acts = some s) (hstop : s.stopping = true) :
    NoWork s.state ↔ ∀ w f, ¬ s.state.Between w f := by
  obtain ⟨c, k⟩ := stopper_reachable h
  simp only [Stopper.stopping, Bool.and_eq_true, List.isEmpty_iff, decide_eq_true_eq] at hstop
  obtain ⟨⟨-, hempty⟩, hzero⟩ := hstop
  have hactive := c.active
  rw [hzero] at hactive
  constructor
  · rintro hno w f ⟨kd, -, -, hready⟩
    exact hno.ready f hready
  · intro hnone
    refine ⟨hempty, hactive.none, fun f hready => ?_⟩
    obtain ⟨it, hit, -⟩ | ⟨w, hheld⟩ := k.ready f hready
    · rw [hempty] at hit
      cases hit
    · -- whoever holds it is counted, but for the one between
      have hidle := hactive.none w
      rcases hpc : s.state.pc w with _ | _ | ft | ⟨st, kd, f'⟩ | _ <;> rw [hpc] at hheld
      · cases hheld
      · cases hheld
      · cases ft with
        | none => cases hheld
        | some ft =>
          rw [hpc] at hidle
          cases hidle
      · obtain ⟨rfl, hk, hst⟩ := held_inside hheld
        rw [hpc] at hidle
        obtain rfl : st = .check := by
          simp only [Pc.busy, decide_eq_false_iff_not] at hidle
          obtain rfl | rfl | rfl | rfl := hst
          · exact absurd ⟨hk, (by simp), (by simp)⟩ hidle
          · exact absurd ⟨hk, (by simp), (by simp)⟩ hidle
          · exact absurd ⟨hk, (by simp), (by simp)⟩ hidle
          · rfl
        exact hnone w f ⟨kd, hpc, hk, hready⟩
      · cases hheld

end

/-- Fiber 1 yields as READY, and worker 0 has lowered the counter; worker 1 is in `idle`. -/
def stopsActs : List (StopAct (Fin 2) Nat Nat) :=
  [.start, .worker (.enter 0 10), .worker (.enter 1 11), .worker (.create 1 7),
    .worker (.schedule [{ fiber := some 1 }]), .worker (.work 0 20), .worker (.work 0 20),
    .worker (.work 0 20), .worker (.work 0 20), .autoStop, .stop, .worker (.work 1 20),
    .worker (.work 1 20), .worker (.work 1 20), .worker (.work 1 20), .worker (.yieldToReady 0),
    .worker (.work 0 20), .worker (.work 0 20)]

/-- Worker 1 finds that the scheduler has stopped, and leaves `run`. -/
theorem stops_early : ∃ s t, run (Stopper.step fun w : Fin 2 => w.val) Stopper.init stopsActs = some s ∧
    s.stopping = true ∧ ¬ NoWork s.state ∧
    run (Stopper.step fun w : Fin 2 => w.val) s [.idle 1, .worker (.work 1 20), .worker (.work 1 20),
      .worker (.work 1 20), .worker (.work 1 20), .worker (.work 1 20)] = some t ∧
    t.state.pc 1 = .exited ∧ t.state.Ready 1 :=
  ⟨_, _, rfl, rfl, fun h => h.ready 1 ⟨rfl, rfl⟩, rfl, rfl, rfl, rfl⟩

/-- Worker 0 puts fiber 1 back, worker 1 tests, and worker 0 runs the fiber to its end. -/
def restsActs : List (StopAct (Fin 2) Nat Nat) :=
  stopsActs ++ [.worker (.work 0 20), .idle 1, .worker (.work 0 20), .worker (.work 0 20),
    .worker (.work 0 20), .worker (.work 0 20), .worker (.finish 0 false), .worker (.work 0 20),
    .worker (.work 0 20)]

theorem stopping_iff_sample : ∃ s,
    run (Stopper.step fun w : Fin 2 => w.val) Stopper.init restsActs = some s ∧ s.stopping = true ∧
      (NoWork s.state ↔ ∀ w f, ¬ s.state.Between w f) :=
  ⟨_, rfl, rfl, stopping_iff (fun w : Fin 2 => w.val) restsActs _ rfl rfl⟩

end ShioSylar.Scheduler.Workers
