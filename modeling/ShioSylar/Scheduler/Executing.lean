import ShioSylar.Scheduler.Owned

/-! Who executes a fiber.

In every run, whatever its scans take, `m_fibers` holds no `idle_fiber`, and a fiber in EXEC is
that of a worker inside it. -/
namespace ShioSylar.Scheduler.Workers
open Lib

variable {ω φ κ : Type}

/-- The fiber that a worker has to do with as a task or a callback. -/
def Pc.task : Pc φ κ → Option φ
  | .chosen ft => ft.bind (·.fiber)
  | .inside _ k f => if k = .idle then none else some f
  | _ => none

structure Executing (s : State ω φ κ) : Prop where
  queue : ∀ it ∈ s.fibers, it.nonempty = true ∧ ∀ f, it.fiber = some f → s.shared f = true
  task : ∀ w f, (s.pc w).task = some f → s.shared f = true
  cbFiber : ∀ w g, (s.worker w).cbFiber = some g → s.shared g = true
  exec : ∀ f, s.isExec f = true → ∃ w st k, s.pc w = .inside st k f

theorem start_executing : Executing (start : State ω φ κ) :=
  ⟨fun _ h => (nomatch h), fun _ _ h => (nomatch h), fun _ _ h => (nomatch h), fun _ h => (nomatch h)⟩

section
variable {s t : State ω φ κ} {w : ω} {f : φ}

/-- A worker moves. -/
theorem Executing.move [DecidableEq ω] (k : Executing s) {x : Worker φ κ}
    (hw : t.worker = Function.update s.worker w x)
    (horigin : ∀ f o, s.origin f = some o → t.origin f = some o)
    (hqueue : ∀ it ∈ t.fibers, it.nonempty = true ∧ ∀ f, it.fiber = some f → s.shared f = true)
    (htask : ∀ f, x.pc.task = some f → t.shared f = true)
    (hcb : ∀ g, x.cbFiber = some g → t.shared g = true)
    (hexec : ∀ f, t.isExec f = true → (∃ st k, x.pc = .inside st k f) ∨
      (s.isExec f = true ∧ ∀ st k, s.pc w ≠ .inside st k f)) : Executing t := by
  have hself : t.worker w = x := by rw [hw, Function.update_self]
  have hother : ∀ w', w' ≠ w → t.worker w' = s.worker w' := by
    intro w' h
    rw [hw, Function.update_of_ne h]
  refine ⟨fun it hit => ?_, fun w' f h => ?_, fun w' g h => ?_, fun f h => ?_⟩
  · obtain ⟨hne, hs⟩ := hqueue it hit
    exact ⟨hne, fun f hf => shared_mono horigin (hs f hf)⟩
  · by_cases hww : w' = w
    · subst hww
      rw [State.pc, hself] at h
      exact htask f h
    · rw [State.pc, hother w' hww] at h
      exact shared_mono horigin (k.task w' f h)
  · by_cases hww : w' = w
    · subst hww
      rw [hself] at h
      exact hcb g h
    · rw [hother w' hww] at h
      exact shared_mono horigin (k.cbFiber w' g h)
  · obtain ⟨st, kd, hx⟩ | ⟨hold, hnot⟩ := hexec f h
    · exact ⟨w, st, kd, by rw [State.pc, hself, hx]⟩
    · obtain ⟨w', st, kd, hpc⟩ := k.exec f hold
      have hww : w' ≠ w := by
        rintro rfl
        exact hnot st kd hpc
      exact ⟨w', st, kd, by rw [State.pc, hother w' hww]; exact hpc⟩

/-- No worker moves. -/
theorem Executing.frame (k : Executing s) (hw : t.worker = s.worker)
    (horigin : ∀ f o, s.origin f = some o → t.origin f = some o)
    (hqueue : ∀ it ∈ t.fibers, it.nonempty = true ∧ ∀ f, it.fiber = some f → s.shared f = true)
    (hexec : ∀ f, t.isExec f = true → s.isExec f = true) : Executing t := by
  have hpc : ∀ w, t.pc w = s.pc w := fun w => pc_congr (congrFun hw w)
  refine ⟨fun it hit => ?_, fun w f h => ?_, fun w g h => ?_, fun f h => ?_⟩
  · obtain ⟨hne, hs⟩ := hqueue it hit
    exact ⟨hne, fun f hf => shared_mono horigin (hs f hf)⟩
  · exact shared_mono horigin (k.task w f (hpc w ▸ h))
  · rw [hw] at h
    exact shared_mono horigin (k.cbFiber w g h)
  · obtain ⟨w, st, kd, h⟩ := k.exec f (hexec f h)
    exact ⟨w, st, kd, (hpc w).trans h⟩

variable [DecidableEq φ]

/-- A fiber whose record is replaced is not in EXEC. -/
theorem isExec_put {r : Fiber κ} (hf : t.fiber = Function.update s.fiber f (some r))
    (hr : r.state ≠ .exec) {f' : φ} (h : t.isExec f' = true) : f' ≠ f ∧ s.isExec f' = true := by
  unfold State.isExec at h ⊢
  rw [hf] at h
  have hne : f' ≠ f := by
    rintro rfl
    rw [Function.update_self] at h
    exact hr (by simpa using h)
  rw [Function.update_of_ne hne] at h
  exact ⟨hne, h⟩

omit [DecidableEq φ] in
/-- A fiber that is not in EXEC. -/
theorem isExec_ne {r : Fiber κ} (hr : s.fiber f = some r) (hs : r.state ≠ .exec) {f' : φ}
    (h : s.isExec f' = true) : f' ≠ f := by
  rintro rfl
  rw [State.isExec, hr] at h
  exact hs (by simpa using h)

omit [DecidableEq φ] in
/-- A worker inside a fiber is inside no other. -/
theorem not_inside {st : Stage} {kd : Kind} (hpc : s.pc w = .inside st kd f) {f' : φ} (hne : f' ≠ f)
    (st' : Stage) (kd' : Kind) : s.pc w ≠ .inside st' kd' f' := by
  intro h
  cases hpc.symm.trans h
  exact hne rfl

theorem Executing.schedule (k : Executing s) {nodes : List (FiberAndThread φ κ)}
    (hok : ∀ ft ∈ nodes, ∀ f, ft.fiber = some f → s.shared f = true) :
    ∀ it ∈ (s.schedule nodes).fibers, it.nonempty = true ∧ ∀ f, it.fiber = some f → s.shared f = true := by
  intro it hit
  simp only [State.schedule, scheduleAll_eq, List.mem_append, List.mem_filter] at hit
  obtain hit | ⟨hit, hne⟩ := hit
  · exact k.queue it hit
  · exact ⟨hne, hok it hit⟩

variable [DecidableEq ω]

theorem Executing.step {thread : ω → Int} {a : Act ω φ κ} (k : Executing s) (h : Effect thread s a t) :
    Executing t := by
  cases h with
  | fails h => exact k.frame rfl (fun _ _ h => h) k.queue fun _ h => h
  | @enters w i hpc hi =>
    refine k.move rfl (put_origin_of_none hi) k.queue (fun _ h => by cases h) (fun _ h => by cases h) fun f hf => .inr ?_
    exact ⟨(isExec_put rfl (by simp) hf).2, by rw [hpc]; simp⟩
  | creates hf =>
    exact k.frame rfl (put_origin_of_none hf) k.queue fun f hf => (isExec_put rfl (by simp) hf).2
  | @schedules nodes hok =>
    refine k.frame rfl (fun _ _ h => h) (k.schedule fun ft hft f hf => ?_) fun _ h => h
    have hshared := (hok ft hft).1
    rwa [hf] at hshared
  | @scans w g x hpc hx =>
    obtain ⟨hrest, htask⟩ := fetch_mem hx
    refine k.move rfl (fun _ _ h => h) (fun it hit => k.queue it (hrest it hit)) (fun f hf => ?_)
      (k.cbFiber w) fun f hf => .inr ⟨hf, by rw [hpc]; simp⟩
    obtain ⟨it, hit, hitf⟩ := Option.bind_eq_some_iff.mp hf
    exact (k.queue it (htask it hit).1).2 f hitf
  | @runs w g ft f hpc hrun =>
    refine k.move rfl (fun _ _ h => h) k.queue (fun f' hf' => ?_) (k.cbFiber w)
      fun f hf => .inr ⟨hf, by rw [hpc]; simp⟩
    cases hf'
    exact k.task w f (by rw [hpc]; exact (Option.filter_eq_some_iff.mp hrun).1)
  | @resets w g ft cb h r r' hpc hrun hcb hown hr hreset =>
    obtain ⟨horigin, hinit, -⟩ := reset_origin hreset
    have hput := put_origin_of_eq hr horigin
    refine k.move rfl hput k.queue (fun f' hf' => ?_) (fun g hg => shared_mono hput (k.cbFiber w g hg))
      fun f hf => .inr ⟨(isExec_put rfl (by simp [hinit]) hf).2, by rw [hpc]; simp⟩
    cases hf'
    exact shared_mono hput (k.cbFiber w h hown)
  | @makes w g ft cb hpc hrun hcb hown hg =>
    have hnew : ∀ f', f' = g → State.shared { s.put g { cb := some cb, origin := .callback } with
        worker := Function.update s.worker w
          { s.worker w with pc := .inside .entry .callback g, cbFiber := some g } } f' = true := by
      rintro f' rfl
      simp [State.shared, State.put]
    refine k.move rfl (put_origin_of_none hg) k.queue (fun f' hf' => ?_) (fun g' hg' => ?_)
      fun f hf => .inr ⟨(isExec_put rfl (by simp) hf).2, by rw [hpc]; simp⟩
    · exact hnew f' (Option.some.inj hf').symm
    · exact hnew g' (Option.some.inj hg').symm
  | discards hpc hrun hcb =>
    exact k.move rfl (fun _ _ h => h) k.queue (fun _ h => by cases h) (k.cbFiber _) fun f hf => .inr ⟨hf, by rw [hpc]; simp⟩
  | exits hpc hown hterm =>
    exact k.move rfl (fun _ _ h => h) k.queue (fun _ h => by cases h) (k.cbFiber _) fun f hf => .inr ⟨hf, by rw [hpc]; simp⟩
  | idles hpc hown hterm =>
    exact k.move rfl (fun _ _ h => h) k.queue (fun _ h => by cases h) (k.cbFiber _) fun f hf => .inr ⟨hf, by rw [hpc]; simp⟩
  | @rewrites _ w st st' kd f r r' hpc hr h hthrew hact =>
    have hput := put_origin_of_eq hr h.origin
    refine k.move rfl hput k.queue (fun f' hf' => shared_mono hput (k.task w f' (by rw [hpc]; exact hf')))
      (fun g hg => shared_mono hput (k.cbFiber w g hg)) fun f' hf' => ?_
    by_cases hne : f' = f
    · exact .inl ⟨st', kd, by rw [hne]⟩
    · refine .inr ⟨?_, not_inside hpc hne⟩
      unfold State.isExec at hf' ⊢
      rwa [show State.fiber _ f' = s.fiber f' from Function.update_of_ne hne ..] at hf'
  | @backs w g kd f hpc =>
    refine k.move rfl (fun _ _ h => h) k.queue (fun f' hf' => k.task w f' (by rw [hpc]; exact hf'))
      (k.cbFiber w) fun f' hf' => ?_
    by_cases hne : f' = f
    · exact .inl ⟨.check, kd, by rw [hne]⟩
    · exact .inr ⟨hf', not_inside hpc hne⟩
  | @readies w g kd f r hpc hr hready hk =>
    refine k.move rfl (fun _ _ h => h) (k.schedule fun ft hft f' hf' => ?_) (fun _ h => by cases h) (fun g hg => ?_)
      fun f' hf' => .inr ⟨hf', not_inside hpc (isExec_ne hr (by simp [hready]) hf')⟩
    · cases List.mem_singleton.mp hft
      cases hf'
      exact k.task w f (by rw [hpc]; exact if_neg hk)
    · split at hg
      · cases hg
      · exact k.cbFiber w g hg
  | @ends w g kd f r hpc hr hend hk =>
    refine k.move rfl (fun _ _ h => h) k.queue (fun _ h => by cases h) (k.cbFiber w)
      fun f' hf' => .inr ⟨hf', not_inside hpc (isExec_ne hr (fun hs => ?_) hf')⟩
    simp [Fiber.ended, hs] at hend
  | @empties w g f r hpc hr hend =>
    have hput : ∀ f' o, s.origin f' = some o →
        (s.put f { r with cb := none, saved := true, state := .init }).origin f' = some o :=
      put_origin_of_eq hr rfl
    refine k.move rfl hput k.queue (fun _ h => by cases h) (fun g hg => shared_mono hput (k.cbFiber w g hg)) fun f' hf' => .inr ?_
    obtain ⟨hne, hold⟩ := isExec_put rfl (by simp) hf'
    exact ⟨hold, not_inside hpc hne⟩
  | @checks w g kd f r hpc hr hready hend =>
    refine k.move rfl (fun _ _ h => h) k.queue (fun f' hf' => k.task w f' (by rw [hpc]; exact hf'))
      (k.cbFiber w) fun f' hf' => ?_
    by_cases hne : f' = f
    · exact .inl ⟨.hold, kd, by rw [hne]⟩
    · exact .inr ⟨hf', not_inside hpc hne⟩
  | @holds w g kd f r hpc hr =>
    have hput : ∀ f' o, s.origin f' = some o → (s.put f { r with state := .hold }).origin f' = some o :=
      put_origin_of_eq hr rfl
    refine k.move rfl hput k.queue (fun _ h => by cases h) (fun g hg => ?_) fun f' hf' => .inr ?_
    · have hg : (if kd = .callback then none else (s.worker w).cbFiber) = some g := hg
      split at hg
      · cases hg
      · exact shared_mono hput (k.cbFiber w g hg)
    · obtain ⟨hne, hold⟩ := isExec_put rfl (by simp) hf'
      exact ⟨hold, not_inside hpc hne⟩

end

end ShioSylar.Scheduler.Workers
