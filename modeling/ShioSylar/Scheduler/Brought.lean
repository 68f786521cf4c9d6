import ShioSylar.Scheduler.Effects

/-! Where the callbacks of a scheduler come from.

A callback in `m_fibers`, taken by a worker or in a fiber was put there by a caller: what holds
of every callback that comes in holds of every one that is there. -/
namespace ShioSylar.Scheduler.Workers

variable {ω φ κ : Type} {P Q : κ → Prop}

/-- Every callback that the scheduler holds has the property. -/
structure Brought (P : κ → Prop) (s : State ω φ κ) : Prop where
  queue : ∀ it ∈ s.fibers, ∀ cb, it.cb = some cb → P cb
  chosen : ∀ w ft cb, s.pc w = .chosen (some ft) → ft.cb = some cb → P cb
  fiber : ∀ f r cb, s.fiber f = some r → r.cb = some cb → P cb

/-- The step brings the callback in. -/
def Act.Brings : Act ω φ κ → κ → Prop
  | .create _ cb, c => cb = c
  | .schedule nodes, c => ∃ ft ∈ nodes, ft.cb = some c
  | _, _ => False

theorem start_brought : Brought P (start : State ω φ κ) :=
  ⟨fun _ h => (nomatch h), fun _ _ _ h => (nomatch h), fun _ _ _ h => (nomatch h)⟩

section
variable {s t : State ω φ κ} {w : ω} {f : φ}

theorem Brought.mono (k : Brought P s) (h : ∀ cb, P cb → Q cb) : Brought Q s :=
  ⟨fun it hit cb hcb => h cb (k.queue it hit cb hcb), fun w ft cb hpc hcb => h cb (k.chosen w ft cb hpc hcb),
    fun f r cb hr hcb => h cb (k.fiber f r cb hr hcb)⟩

/-- A worker moves. -/
theorem Brought.move [DecidableEq ω] (k : Brought P s) {x : Worker φ κ}
    (hw : t.worker = Function.update s.worker w x)
    (hqueue : ∀ it ∈ t.fibers, ∀ cb, it.cb = some cb → P cb)
    (hchosen : ∀ ft cb, x.pc = .chosen (some ft) → ft.cb = some cb → P cb)
    (hfiber : ∀ f r cb, t.fiber f = some r → r.cb = some cb → P cb) : Brought P t := by
  refine ⟨hqueue, fun w' ft cb hpc hcb => ?_, hfiber⟩
  by_cases hww : w' = w
  · subst hww
    rw [pc_update_self hw] at hpc
    exact hchosen ft cb hpc hcb
  · rw [pc_update_of_ne hw hww] at hpc
    exact k.chosen w' ft cb hpc hcb

/-- One record is replaced. -/
theorem Brought.put [DecidableEq φ] (k : Brought P s) {r : Fiber κ} (hr : ∀ cb, r.cb = some cb → P cb) :
    ∀ f' r' cb, (s.put f r).fiber f' = some r' → r'.cb = some cb → P cb := by
  intro f' r' cb hr' hcb
  by_cases hf : f' = f
  · subst hf
    simp only [State.put, Function.update_self] at hr'
    cases hr'
    exact hr cb hcb
  · simp only [State.put, Function.update_of_ne hf] at hr'
    exact k.fiber f' r' cb hr' hcb

theorem Brought.schedule (k : Brought P s) [DecidableEq φ] {nodes : List (FiberAndThread φ κ)}
    (hnew : ∀ ft ∈ nodes, ∀ cb, ft.cb = some cb → P cb) :
    ∀ it ∈ (s.schedule nodes).fibers, ∀ cb, it.cb = some cb → P cb := by
  intro it hit
  simp only [State.schedule, scheduleAll_eq, List.mem_append, List.mem_filter] at hit
  obtain hit | ⟨hit, -⟩ := hit
  · exact k.queue it hit
  · exact hnew it hit

theorem Rewrites.cb {st st' : Stage} {r r' : Fiber κ} (h : Rewrites st st' r r') :
    r'.cb = r.cb ∨ r'.cb = none := by
  cases h with
  | term => exact .inr rfl
  | swapIn | switchTo | yieldToHold | yieldToReady | except | switchFrom => exact .inl rfl

variable [DecidableEq ω] [DecidableEq φ]

theorem Brought.step {thread : ω → Int} {a : Act ω φ κ} (k : Brought P s)
    (hnew : ∀ cb, a.Brings cb → P cb) (h : Effect thread s a t) : Brought P t := by
  cases h with
  | fails h => exact ⟨k.queue, k.chosen, k.fiber⟩
  | enters hpc hi => exact k.move rfl k.queue nofun (k.put nofun)
  | creates hf => exact ⟨k.queue, k.chosen, k.put fun cb hcb => hnew cb (Option.some.inj hcb)⟩
  | schedules hok =>
    exact ⟨k.schedule fun ft hft cb hcb => hnew cb ⟨ft, hft, hcb⟩, k.chosen, k.fiber⟩
  | @scans w g x hpc hx =>
    obtain ⟨hrest, htask⟩ := fetch_mem hx
    refine k.move rfl (fun it hit => k.queue it (hrest it hit)) (fun ft cb hft hcb => ?_) k.fiber
    exact k.queue ft (htask ft (Pc.chosen.inj hft)).1 cb hcb
  | runs hpc hrun => exact k.move rfl k.queue nofun k.fiber
  | @resets w g ft cb h r r' hpc hrun hcb hown hr hreset =>
    refine k.move rfl k.queue nofun (k.put fun c hc => ?_)
    rw [reset_cb hreset] at hc
    exact k.chosen w ft c hpc (hcb.trans hc)
  | @makes w g ft cb hpc hrun hcb hown hg =>
    exact k.move rfl k.queue nofun (k.put fun c hc => k.chosen w ft c hpc (hcb.trans hc))
  | discards hpc hrun hcb => exact k.move rfl k.queue nofun k.fiber
  | exits hpc hown hterm => exact k.move rfl k.queue nofun k.fiber
  | idles hpc hown hterm => exact k.move rfl k.queue nofun k.fiber
  | @rewrites _ w st st' kd f r r' hpc hr h hthrew hact =>
    refine k.move rfl k.queue nofun (k.put fun cb hcb => ?_)
    obtain heq | hnone := h.cb
    · exact k.fiber f r cb hr (heq.symm.trans hcb)
    · cases hnone.symm.trans hcb
  | backs hpc => exact k.move rfl k.queue nofun k.fiber
  | @readies w g kd f r hpc hr hready hk =>
    refine k.move rfl (k.schedule fun ft hft cb hcb => ?_) nofun k.fiber
    cases List.mem_singleton.mp hft
    cases hcb
  | ends hpc hr hend hk => exact k.move rfl k.queue nofun k.fiber
  | empties hpc hr hend => exact k.move rfl k.queue nofun (k.put nofun)
  | checks hpc hr hready hend => exact k.move rfl k.queue nofun k.fiber
  | @holds w g kd f r hpc hr => exact k.move rfl k.queue nofun (k.put fun cb hcb => k.fiber f r cb hr hcb)

end

end ShioSylar.Scheduler.Workers
