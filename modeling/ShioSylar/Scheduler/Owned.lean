import Mathlib.Data.Fintype.Basic
import ShioSylar.Scheduler.Effects

/-! Who made a fiber, where scans take free fibers.

`TakesFree` asks of each scan that nobody has to do with the fiber it takes. A fiber in
`m_fibers` or in the hands of a worker is then never an `idle_fiber`, and a `cb_fiber` is
engaged by its own worker only. -/
namespace ShioSylar.Scheduler.Workers
open Lib

variable {ω φ κ : Type}

def State.ended (s : State ω φ κ) (f : φ) : Bool := (s.fiber f).any (·.ended)

def State.origin (s : State ω φ κ) (f : φ) : Option Origin := (s.fiber f).map (·.origin)

/-- The fiber that a worker's scan takes. -/
def State.takes [DecidableEq φ] (thread : ω → Int) (s : State ω φ κ) (w : ω) : Option φ :=
  match s.pc w with
  | .top => ((fetch (thread w) s.isExec s.fibers).bind (·.task)).bind (·.fiber)
  | _ => none

/-- A scan takes a fiber that is no `cb_fiber`, and that no worker is engaged with unless it
has ended. -/
def TakesFree [DecidableEq φ] (thread : ω → Int) (s : State ω φ κ) : Act ω φ κ → Prop
  | .work w _ => ∀ f, s.takes thread w = some f → (∀ w', (s.worker w').cbFiber ≠ some f) ∧
      (s.ended f = true ∨ ∀ w', (s.pc w').fiber ≠ some f)
  | _ => True

instance [DecidableEq φ] [Fintype ω] (thread : ω → Int) (s : State ω φ κ) :
    (a : Act ω φ κ) → Decidable (TakesFree thread s a)
  | .work w _ =>
    match h : s.takes thread w with
    | none => isTrue (by simp [TakesFree, h])
    | some f => decidable_of_iff ((∀ w', (s.worker w').cbFiber ≠ some f) ∧
        (s.ended f = true ∨ ∀ w', (s.pc w').fiber ≠ some f)) (by simp [TakesFree, h])
  | .enter _ _ | .create _ _ | .schedule _ | .yieldToHold _ | .yieldToReady _ | .finish _ _ =>
    isTrue trivial

theorem takes_eq [DecidableEq φ] {thread : ω → Int} {s : State ω φ κ} {w : ω} (hpc : s.pc w = .top)
    {x : Fetched φ κ} (hx : fetch (thread w) s.isExec s.fibers = some x) {it : FiberAndThread φ κ}
    (hit : x.task = some it) : s.takes thread w = it.fiber := by
  simp [State.takes, hpc, hx, hit]

/-! ### Who made a fiber -/

structure Owned (s : State ω φ κ) : Prop where
  queue : ∀ it ∈ s.fibers, it.nonempty = true ∧ ∀ f, it.fiber = some f → s.shared f = true
  chosen : ∀ w ft f, s.pc w = .chosen (some ft) → ft.fiber = some f →
    s.shared f = true ∧ ∀ w', (s.worker w').cbFiber ≠ some f
  task : ∀ w st f, s.pc w = .inside st .task f →
    s.shared f = true ∧ ∀ w', (s.worker w').cbFiber ≠ some f
  callback : ∀ w st f, s.pc w = .inside st .callback f → (s.worker w).cbFiber = some f
  idle : ∀ w st f, s.pc w = .inside st .idle f → (s.worker w).idleFiber = some f
  cbFiber : ∀ w g, (s.worker w).cbFiber = some g →
    s.origin g = some .callback ∧ ∀ w', (s.worker w').cbFiber = some g → w' = w
  idleFiber : ∀ w i, (s.worker w).idleFiber = some i →
    s.origin i = some .idle ∧ ∀ w', (s.worker w').idleFiber = some i → w' = w

theorem start_owned : Owned (start : State ω φ κ) := by
  refine ⟨fun _ h => (nomatch h), ?_, ?_, ?_, ?_, ?_, ?_⟩ <;> intros <;>
    simp_all [start, State.pc]

section
variable {s t : State ω φ κ} {w : ω} {f : φ}

theorem shared_iff : s.shared f = true ↔ ∃ o, s.origin f = some o ∧ o ≠ .idle := by
  unfold State.shared State.origin
  cases s.fiber f <;> simp

theorem shared_mono (horigin : ∀ f o, s.origin f = some o → t.origin f = some o) (h : s.shared f = true) :
    t.shared f = true := by
  obtain ⟨o, ho, hne⟩ := shared_iff.mp h
  exact shared_iff.mpr ⟨o, horigin f o ho, hne⟩

/-- The shared fibers that are no worker's `cb_fiber`. -/
def State.Free (s : State ω φ κ) (f : φ) : Prop :=
  s.shared f = true ∧ ∀ w', (s.worker w').cbFiber ≠ some f

/-- A worker is rewritten, and the fibers keep their origins. -/
theorem Owned.update [DecidableEq ω] (k : Owned s) {x : Worker φ κ}
    (hw : t.worker = Function.update s.worker w x)
    (horigin : ∀ f o, s.origin f = some o → t.origin f = some o)
    (hqueue : ∀ it ∈ t.fibers, it.nonempty = true ∧ ∀ f, it.fiber = some f → s.shared f = true)
    (hfree : ∀ f, x.pc.fiber = some f → (∃ ft, x.pc = .chosen ft) ∨ (∃ st, x.pc = .inside st .task f) →
      s.Free f)
    (hcallback : ∀ st f, x.pc = .inside st .callback f → x.cbFiber = some f)
    (hidle : ∀ st f, x.pc = .inside st .idle f → x.idleFiber = some f)
    (hcb : ∀ g, x.cbFiber = some g → (s.worker w).cbFiber = some g ∨
      (s.origin g = none ∧ t.origin g = some .callback))
    (hid : ∀ i, x.idleFiber = some i → (s.worker w).idleFiber = some i ∨
      (s.origin i = none ∧ t.origin i = some .idle)) : Owned t := by
  have hself : t.worker w = x := by rw [hw, Function.update_self]
  have hother : ∀ {w'}, w' ≠ w → t.worker w' = s.worker w' := fun h => by rw [hw, Function.update_of_ne h]
  have hshared : ∀ {f}, s.shared f = true → t.shared f = true := shared_mono horigin
  -- a new `cb_fiber` is at a new address
  have hcbs : ∀ {w' g}, (t.worker w').cbFiber = some g → (s.worker w').cbFiber = some g ∨
      (w' = w ∧ s.origin g = none ∧ t.origin g = some .callback) := by
    intro w' g h
    by_cases hne : w' = w
    · subst hne
      rw [hself] at h
      exact (hcb g h).imp_right fun h => ⟨rfl, h⟩
    · rw [hother hne] at h
      exact .inl h
  have hids : ∀ {w' i}, (t.worker w').idleFiber = some i → (s.worker w').idleFiber = some i ∨
      (w' = w ∧ s.origin i = none ∧ t.origin i = some .idle) := by
    intro w' i h
    by_cases hne : w' = w
    · subst hne
      rw [hself] at h
      exact (hid i h).imp_right fun h => ⟨rfl, h⟩
    · rw [hother hne] at h
      exact .inl h
  have hkeeps : ∀ {f}, s.Free f → t.shared f = true ∧ ∀ w', (t.worker w').cbFiber ≠ some f := by
    rintro f ⟨hs, hnone⟩
    refine ⟨hshared hs, fun w' h => ?_⟩
    rcases hcbs h with h | ⟨-, hnew, -⟩
    · exact hnone w' h
    · obtain ⟨o, ho, -⟩ := shared_iff.mp hs
      cases hnew.symm.trans ho
  have hpc : ∀ {w'}, w' ≠ w → t.pc w' = s.pc w' := fun h => pc_update_of_ne hw h
  have hpcw := pc_update_self hw
  refine ⟨fun it hit => ?_, fun w' ft f h hf => ?_, fun w' st f h => ?_, fun w' st f h => ?_,
    fun w' st f h => ?_, fun w' g h => ?_, fun w' i h => ?_⟩
  · obtain ⟨hne, hs⟩ := hqueue it hit
    exact ⟨hne, fun f hf => hshared (hs f hf)⟩
  · refine hkeeps ?_
    by_cases hne : w' = w
    · subst hne
      rw [hpcw] at h
      exact hfree f (by rw [h]; exact hf) (.inl ⟨_, h⟩)
    · exact k.chosen w' ft f (hpc hne ▸ h) hf
  · refine hkeeps ?_
    by_cases hne : w' = w
    · subst hne
      rw [hpcw] at h
      exact hfree f (by rw [h]; rfl) (.inr ⟨st, h⟩)
    · exact k.task w' st f (hpc hne ▸ h)
  · by_cases hne : w' = w
    · subst hne
      rw [hself]
      exact hcallback st f (hpcw ▸ h)
    · rw [hother hne]
      exact k.callback w' st f (hpc hne ▸ h)
  · by_cases hne : w' = w
    · subst hne
      rw [hself]
      exact hidle st f (hpcw ▸ h)
    · rw [hother hne]
      exact k.idle w' st f (hpc hne ▸ h)
  · rcases hcbs h with h | ⟨rfl, hnew, horig⟩
    · obtain ⟨ho, honly⟩ := k.cbFiber w' g h
      refine ⟨horigin g _ ho, fun w'' h' => ?_⟩
      rcases hcbs h' with h' | ⟨-, hnew, -⟩
      · exact honly w'' h'
      · cases hnew.symm.trans ho
    · refine ⟨horig, fun w'' h' => ?_⟩
      rcases hcbs h' with h' | ⟨hw'', -⟩
      · cases hnew.symm.trans (k.cbFiber w'' g h').1
      · exact hw''
  · rcases hids h with h | ⟨rfl, hnew, horig⟩
    · obtain ⟨ho, honly⟩ := k.idleFiber w' i h
      refine ⟨horigin i _ ho, fun w'' h' => ?_⟩
      rcases hids h' with h' | ⟨-, hnew, -⟩
      · exact honly w'' h'
      · cases hnew.symm.trans ho
    · refine ⟨horig, fun w'' h' => ?_⟩
      rcases hids h' with h' | ⟨hw'', -⟩
      · cases hnew.symm.trans (k.idleFiber w'' i h').1
      · exact hw''

/-- No worker moves. -/
theorem Owned.frame (k : Owned s) (hw : t.worker = s.worker)
    (horigin : ∀ f o, s.origin f = some o → t.origin f = some o)
    (hqueue : ∀ it ∈ t.fibers, it.nonempty = true ∧ ∀ f, it.fiber = some f → s.shared f = true) :
    Owned t := by
  have hshared : ∀ {f}, s.shared f = true → t.shared f = true := shared_mono horigin
  have hpc : t.pc = s.pc := funext fun w => pc_congr (congrFun hw w)
  refine ⟨fun it hit => ?_, fun w ft f h hf => ?_, fun w st f h => ?_, ?_, ?_, fun w g h => ?_,
    fun w i h => ?_⟩
  · obtain ⟨hne, hs⟩ := hqueue it hit
    exact ⟨hne, fun f hf => hshared (hs f hf)⟩
  · rw [hpc] at h
    rw [hw]
    exact (k.chosen w ft f h hf).imp_left hshared
  · rw [hpc] at h
    rw [hw]
    exact (k.task w st f h).imp_left hshared
  · rw [hpc, hw]
    exact k.callback
  · rw [hpc, hw]
    exact k.idle
  · rw [hw] at h ⊢
    exact (k.cbFiber w g h).imp_left (horigin g _)
  · rw [hw] at h ⊢
    exact (k.idleFiber w i h).imp_left (horigin i _)

variable [DecidableEq ω] [DecidableEq φ]

omit [DecidableEq ω] in
theorem put_origin {r : Fiber κ} (h : ∀ o, s.origin f = some o → r.origin = o) :
    ∀ f' o, s.origin f' = some o → (s.put f r).origin f' = some o := by
  intro f' o ho
  unfold State.origin State.put at *
  by_cases hf : f' = f
  · subst hf
    simp [h o ho]
  · simpa [Function.update_of_ne hf] using ho

omit [DecidableEq ω] in
/-- The new record of a fiber has its origin. -/
theorem put_origin_of_eq {r r' : Fiber κ} (hr : s.fiber f = some r) (h : r'.origin = r.origin) :
    ∀ f' o, s.origin f' = some o → (s.put f r').origin f' = some o := by
  refine put_origin fun o ho => ?_
  rw [State.origin, hr] at ho
  cases ho
  exact h

omit [DecidableEq ω] in
/-- A fiber at a new address. -/
theorem put_origin_of_none {r : Fiber κ} (hf : s.fiber f = none) :
    ∀ f' o, s.origin f' = some o → (s.put f r).origin f' = some o := by
  refine put_origin fun o ho => ?_
  rw [State.origin, hf] at ho
  cases ho

omit [DecidableEq φ] in
/-- A worker goes on with its fiber. -/
theorem Owned.inside (k : Owned s) {st st' : Stage} {kd : Kind} (hpc : s.pc w = .inside st kd f)
    (hw : t.worker = (s.goto w (.inside st' kd f)).worker)
    (horigin : ∀ f o, s.origin f = some o → t.origin f = some o) (hfibers : t.fibers = s.fibers) :
    Owned t := by
  refine k.update hw horigin (hfibers ▸ k.queue) ?_ ?_ ?_ (fun _ h => .inl h) (fun _ h => .inl h)
  · rintro f' - (⟨ft, h⟩ | ⟨st'', h⟩)
    · cases h
    · cases h
      exact k.task w st f hpc
  · intro st'' f' h
    cases h
    exact k.callback w st f hpc
  · intro st'' f' h
    cases h
    exact k.idle w st f hpc

omit [DecidableEq φ] in
/-- A worker is without a fiber, and may have given up its `cb_fiber`. -/
theorem Owned.outside (k : Owned s) {x : Worker φ κ} (hx : x.pc.fiber = none)
    (hw : t.worker = Function.update s.worker w x)
    (horigin : ∀ f o, s.origin f = some o → t.origin f = some o)
    (hqueue : ∀ it ∈ t.fibers, it.nonempty = true ∧ ∀ f, it.fiber = some f → s.shared f = true)
    (hcb : ∀ g, x.cbFiber = some g → (s.worker w).cbFiber = some g)
    (hid : x.idleFiber = (s.worker w).idleFiber) : Owned t := by
  refine k.update hw horigin hqueue (fun f hf => ?_) (fun st f h => ?_) (fun st f h => ?_)
    (fun g h => .inl (hcb g h)) (fun i h => .inl (hid ▸ h))
  · cases hx.symm.trans hf
  · rw [h] at hx
    cases hx
  · rw [h] at hx
    cases hx

omit [DecidableEq ω] in
theorem schedule_queue (k : Owned s) {nodes : List (FiberAndThread φ κ)}
    (hok : ∀ ft ∈ nodes, ∀ f, ft.fiber = some f → s.shared f = true) :
    ∀ it ∈ (s.schedule nodes).fibers, it.nonempty = true ∧ ∀ f, it.fiber = some f → s.shared f = true := by
  intro it hit
  simp only [State.schedule, scheduleAll_eq, List.mem_append, List.mem_filter] at hit
  rcases hit with hit | ⟨hit, hne⟩
  · exact k.queue it hit
  · exact ⟨hne, hok it hit⟩

omit [DecidableEq ω] [DecidableEq φ] in
/-- A fiber that a worker comes back from as a task or a callback is shared. -/
theorem Owned.inside_shared (k : Owned s) {st : Stage} {kd : Kind} (hpc : s.pc w = .inside st kd f)
    (hk : kd ≠ .idle) : s.shared f = true := by
  cases kd with
  | task => exact (k.task w st f hpc).1
  | callback =>
    obtain ⟨ho, -⟩ := k.cbFiber w f (k.callback w st f hpc)
    exact shared_iff.mpr ⟨_, ho, fun h => nomatch h⟩
  | idle => exact absurd rfl hk

theorem reset_origin {r r' : Fiber κ} {cb : Option κ} (h : r.reset cb = .ok r') :
    r'.origin = r.origin ∧ r'.state = .init ∧ r'.saved = true := by
  unfold Fiber.reset at h
  split at h <;> cases h
  exact ⟨rfl, rfl, rfl⟩

/-- A step keeps who made what. -/
theorem Owned.step {thread : ω → Int} {a : Act ω φ κ} (k : Owned s) (hg : TakesFree thread s a)
    (h : Effect thread s a t) : Owned t := by
  cases h with
  | fails h => exact k.frame rfl (fun _ _ h => h) k.queue
  | enters hpc hi =>
    refine k.update rfl (put_origin_of_none hi) k.queue ?_ ?_ ?_ ?_ ?_ <;> intros <;>
      simp_all [Pc.fiber, State.origin, State.put]
  | creates hf => exact k.frame rfl (put_origin_of_none hf) k.queue
  | schedules hok =>
    refine k.frame rfl (fun _ _ h => h) (schedule_queue k fun ft hft f hf => ?_)
    simpa [hf] using (hok ft hft).1
  | @scans w g x hpc hx =>
    obtain ⟨hrest, htask⟩ := fetch_mem hx
    refine k.update rfl (fun _ _ h => h) (fun it hit => k.queue it (hrest it hit)) (fun f hf _ => ?_)
      (fun _ _ h => nomatch h) (fun _ _ h => nomatch h) (fun _ h => .inl h) (fun _ h => .inl h)
    obtain ⟨it, hit, hf⟩ := Option.bind_eq_some_iff.mp hf
    exact ⟨(k.queue it (htask it hit).1).2 f hf, (hg f ((takes_eq hpc hx hit).trans hf)).1⟩
  | @runs w g ft f hpc hrun =>
    have hf : ft.fiber = some f := (Option.filter_eq_some_iff.mp hrun).1
    refine k.update rfl (fun _ _ h => h) k.queue (fun f' hf' _ => ?_) (fun _ _ h => nomatch h)
      (fun _ _ h => nomatch h) (fun _ h => .inl h) (fun _ h => .inl h)
    cases hf'
    exact k.chosen w ft f hpc hf
  | @resets w g ft cb h r r' hpc hrun hcb hown hr hreset =>
    refine k.update rfl (put_origin_of_eq hr (reset_origin hreset).1) k.queue ?_ ?_
      (fun _ _ h => nomatch h) (fun _ h => .inl h) (fun _ h => .inl h)
    · rintro f' - (⟨ft, h⟩ | ⟨st, h⟩) <;> cases h
    · intro st f' h
      cases h
      exact hown
  | @makes w g ft cb hpc hrun hcb hown hg' =>
    refine k.update rfl (put_origin_of_none hg') k.queue ?_ ?_ (fun _ _ h => nomatch h) ?_
      (fun _ h => .inl h)
    · rintro f' - (⟨ft, h⟩ | ⟨st, h⟩) <;> cases h
    · intro st f' h
      cases h
      rfl
    · intro g' h
      cases h
      exact .inr ⟨by simp [State.origin, hg'], by simp [State.origin, State.put]⟩
  | discards hpc hrun hcb =>
    exact k.outside rfl rfl (fun _ _ h => h) k.queue (fun _ h => h) rfl
  | exits hpc hown hterm => exact k.outside rfl rfl (fun _ _ h => h) k.queue (fun _ h => h) rfl
  | @idles w g i hpc hown hterm =>
    refine k.update rfl (fun _ _ h => h) k.queue ?_ (fun _ _ h => nomatch h) ?_ (fun _ h => .inl h)
      (fun _ h => .inl h)
    · rintro f' - (⟨ft, h⟩ | ⟨st, h⟩) <;> cases h
    · intro st f' h
      cases h
      exact hown
  | rewrites hpc hr h hthrew hact => exact k.inside hpc rfl (put_origin_of_eq hr h.origin) rfl
  | backs hpc => exact k.inside hpc rfl (fun _ _ h => h) rfl
  | readies hpc hr hready hk =>
    refine k.outside rfl rfl (fun _ _ h => h) (schedule_queue k fun ft hft f hf => ?_) (fun g hg' => ?_) rfl
    · cases List.mem_singleton.mp hft
      cases hf
      exact k.inside_shared hpc hk
    · split at hg'
      · cases hg'
      · exact hg'
  | ends hpc hr hend hk => exact k.outside rfl rfl (fun _ _ h => h) k.queue (fun _ h => h) rfl
  | empties hpc hr hend =>
    exact k.outside rfl rfl (put_origin_of_eq hr rfl) k.queue (fun _ h => h) rfl
  | checks hpc hr hready hend => exact k.inside hpc rfl (fun _ _ h => h) rfl
  | holds hpc hr =>
    refine k.outside rfl rfl (put_origin_of_eq hr rfl) k.queue (fun g hg' => ?_) rfl
    split at hg'
    · cases hg'
    · exact hg'

end

end ShioSylar.Scheduler.Workers
