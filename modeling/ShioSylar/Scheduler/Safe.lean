import ShioSylar.Scheduler.Workers

/-! Where every fiber is, under the wake-before-suspend handshake.

A fiber that a worker is engaged with, from the scan that took it to the write of HOLD, has
no other worker. `Engaged` lists what its record looks like at each point, `Settled` what it
looks like when no worker is, and `Safe` says so for all fibers. Almost every step moves one
worker with one fiber, so preservation is one lemma (`Safe.move`). -/
namespace ShioSylar.Scheduler.Workers

variable {ω φ κ : Type}

/-! ### Where a fiber is -/

/-- The fibers in `m_fibers`. -/
def State.queued (s : State ω φ κ) : List φ := s.fibers.filterMap (·.fiber)

/-- A record at rest that may be switched to. -/
def Fiber.Startable (r : Fiber κ) : Prop := r.saved = true ∧ (r.state = .init ∨ r.state = .hold)

/-- EXEC, or at its end and not queued. -/
def Fiber.Active (r : Fiber κ) (woken : Bool) (queued : Prop) : Prop :=
  (woken = true ↔ queued) ∧ (r.state = .exec ∨ (r.ended = true ∧ woken = false))

/-- A fiber that a worker is engaged with. -/
def Engaged (r : Fiber κ) (woken : Bool) (queued : Prop) : Pc φ κ → Prop
  | .chosen _ => r.Startable ∧ woken = true ∧ ¬ queued
  | .inside .entry k _ => r.Startable ∧ (woken = true ↔ k = .task) ∧ ¬ queued ∧
      (k = .callback → r.state = .init)
  | .inside .entered _ _ => r.saved = true ∧ r.state = .exec ∧ (woken = true ↔ queued)
  | .inside .running _ _ => r.saved = false ∧ r.state = .exec ∧ (woken = true ↔ queued)
  | .inside .leaving _ _ => r.saved = false ∧ r.Active woken queued
  | .inside .back _ _ => r.saved = true ∧ r.Active woken queued
  | .inside .check _ _ => r.saved = true ∧ r.Active woken queued
  | .inside .hold _ _ => r.saved = true ∧ r.state = .exec ∧ (woken = true ↔ queued)
  | _ => True

/-- A fiber that no worker is engaged with. -/
def Settled (r : Fiber κ) (woken : Bool) (queued : Prop) : Prop :=
  r.saved = true ∧ r.state ≠ .exec ∧ r.state ≠ .ready ∧ (woken = true ↔ queued) ∧
    (woken = true → r.state = .hold ∨ (r.state = .init ∧ r.origin = .user))

/-- Nobody queues an `idle_fiber`, and `idle` does not throw. -/
def Quiet (r : Fiber κ) (woken : Bool) : Prop :=
  r.origin = .idle → woken = false ∧ r.state ≠ .except

structure Safe (s : State ω φ κ) : Prop where
  fault : s.fault = none
  nonempty : ∀ it ∈ s.fibers, it.nonempty = true
  nodup : s.queued.Nodup
  unique : ∀ w w' f, (s.pc w).fiber = some f → (s.pc w').fiber = some f → w = w'
  engaged : ∀ w f, (s.pc w).fiber = some f →
    ∃ r, s.fiber f = some r ∧ Engaged r (s.woken f) (f ∈ s.queued) (s.pc w)
  settled : ∀ f r, s.fiber f = some r → (∀ w, (s.pc w).fiber ≠ some f) →
    Settled r (s.woken f) (f ∈ s.queued)
  absent : ∀ f, s.fiber f = none → s.woken f = false ∧ f ∉ s.queued
  quiet : ∀ f r, s.fiber f = some r → Quiet r (s.woken f)
  /-- A worker switches to a callback or to `idle` only in its own fibers. -/
  owner : ∀ w st k f, s.pc w = .inside st k f →
    (k = .callback → (s.worker w).cbFiber = some f) ∧ (k = .idle → (s.worker w).idleFiber = some f)
  callback : ∀ w g, (s.worker w).cbFiber = some g →
    (∃ r, s.fiber g = some r ∧ r.origin = .callback ∧
      ((∃ st, s.pc w = .inside st .callback g) ∨ (r.state = .init ∧ (s.pc w).fiber ≠ some g))) ∧
    ∀ w', (s.pc w').fiber = some g ∨ (s.worker w').cbFiber = some g → w' = w
  idle : ∀ w i, (s.worker w).idleFiber = some i →
    (∃ r, s.fiber i = some r ∧ r.origin = .idle) ∧
    ∀ w', (s.pc w').fiber = some i ∨ (s.worker w').idleFiber = some i → w' = w

theorem start_safe : Safe (start : State ω φ κ) := by
  refine ⟨rfl, fun it hit => (nomatch hit), List.nodup_nil, fun w w' f h => (nomatch h),
    fun w f h => (nomatch h), fun f r h => (nomatch h), fun f _ => ⟨rfl, fun h => (nomatch h)⟩,
    fun f r h => (nomatch h), fun w st k f h => (nomatch h), fun w g h => (nomatch h),
    fun w i h => (nomatch h)⟩

/-! ### One worker moves with one fiber -/

/-- From `s` to `t` only the worker `w` and the fiber `f` have moved, and its record is `r`. -/
structure Move [DecidableEq φ] (s t : State ω φ κ) (w : ω) (f : φ) (r : Fiber κ) : Prop where
  fault : t.fault = none
  nonempty : ∀ it ∈ t.fibers, it.nonempty = true
  nodup : t.queued.Nodup
  worker : ∀ w', w' ≠ w → t.worker w' = s.worker w'
  fiber : t.fiber = Function.update s.fiber f (some r)
  woken : ∀ f', f' ≠ f → t.woken f' = s.woken f'
  queued : ∀ f', f' ≠ f → (f' ∈ t.queued ↔ f' ∈ s.queued)
  before : ∀ f', (s.pc w).fiber = some f' → f' = f
  after : ∀ f', (t.pc w).fiber = some f' → f' = f
  /-- No other worker has to do with the fiber. -/
  alone : ∀ w', w' ≠ w → (s.pc w').fiber ≠ some f ∧ (s.worker w').cbFiber ≠ some f ∧
    (s.worker w').idleFiber ≠ some f
  engaged : (t.pc w).fiber = some f → Engaged r (t.woken f) (f ∈ t.queued) (t.pc w)
  settled : (t.pc w).fiber ≠ some f → Settled r (t.woken f) (f ∈ t.queued)
  quiet : Quiet r (t.woken f)
  owner : ∀ st k, t.pc w = .inside st k f →
    (k = .callback → (t.worker w).cbFiber = some f) ∧ (k = .idle → (t.worker w).idleFiber = some f)
  callback : ∀ g, (t.worker w).cbFiber = some g → (g ≠ f ∧ (s.worker w).cbFiber = some g) ∨
    (g = f ∧ r.origin = .callback ∧
      ((∃ st, t.pc w = .inside st .callback f) ∨ (r.state = .init ∧ (t.pc w).fiber ≠ some f)))
  idle : ∀ i, (t.worker w).idleFiber = some i → (i ≠ f ∧ (s.worker w).idleFiber = some i) ∨
    (i = f ∧ r.origin = .idle)

section
variable [DecidableEq φ] {s t : State ω φ κ} {w : ω} {f : φ} {r : Fiber κ}

theorem Move.pc_other (m : Move s t w f r) {w' : ω} (hw : w' ≠ w) : t.pc w' = s.pc w' := by
  simp only [State.pc, m.worker w' hw]

theorem Move.fiber_other (m : Move s t w f r) {f' : φ} (hf : f' ≠ f) : t.fiber f' = s.fiber f' := by
  rw [m.fiber, Function.update_of_ne hf]

theorem Move.fiber_self (m : Move s t w f r) : t.fiber f = some r := by
  rw [m.fiber, Function.update_self]

/-- Engagements after the move are the old ones, or the moved one. -/
theorem Move.fiber_pc (m : Move s t w f r) {w' : ω} {f' : φ} (h : (t.pc w').fiber = some f') :
    (w' = w ∧ f' = f) ∨ (w' ≠ w ∧ f' ≠ f ∧ (s.pc w').fiber = some f') := by
  by_cases hw : w' = w
  · subst hw
    exact .inl ⟨rfl, m.after f' h⟩
  · rw [m.pc_other hw] at h
    refine .inr ⟨hw, ?_, h⟩
    intro heq
    subst heq
    exact (m.alone w' hw).1 h

/-- What a worker owns, it owns alone, and no other worker is engaged with it: this stays so
for what the move does not touch, and is so for the moved fiber. -/
theorem Move.owned_only (m : Move s t w f r) (own : Worker φ κ → Option φ)
    (halone : ∀ w', w' ≠ w → own (s.worker w') ≠ some f)
    (hown : ∀ g, own (t.worker w) = some g → g = f ∨ own (s.worker w) = some g)
    (honly : ∀ w' g, own (s.worker w') = some g →
      ∀ w'', (s.pc w'').fiber = some g ∨ own (s.worker w'') = some g → w'' = w')
    {w' : ω} {g : φ} (h : own (t.worker w') = some g) (w'' : ω)
    (h'' : (t.pc w'').fiber = some g ∨ own (t.worker w'') = some g) : w'' = w' := by
  by_cases hg : g = f
  · -- only the moved worker has to do with the fiber
    subst hg
    have hself : ∀ {v}, ((t.pc v).fiber = some g ∨ own (t.worker v) = some g) → v = w := by
      intro v hv
      by_contra hne
      rw [m.pc_other hne, m.worker v hne] at hv
      exact hv.elim (m.alone v hne).1 (halone v hne)
    rw [hself h'', hself (.inr h)]
  · -- whoever has to do with it now had before
    have hown' : ∀ {v}, own (t.worker v) = some g → own (s.worker v) = some g := by
      intro v hv
      by_cases hvw : v = w
      · subst hvw
        exact (hown g hv).resolve_left hg
      · rwa [m.worker v hvw] at hv
    refine honly w' g (hown' h) w'' (h''.imp (fun hpc => ?_) hown')
    rcases m.fiber_pc hpc with ⟨-, hf⟩ | ⟨-, -, hpc⟩
    · exact absurd hf hg
    · exact hpc

theorem Safe.move (k : Safe s) (m : Move s t w f r) : Safe t := by
  refine ⟨m.fault, m.nonempty, m.nodup, fun w₁ w₂ f' h₁ h₂ => ?_, fun w' f' h => ?_,
    fun f' r' hr' hfree => ?_, fun f' hf' => ?_, fun f' r' hr' => ?_, fun w' st k' f' h => ?_,
    fun w' g h => ⟨?_, ?_⟩, fun w' i h => ⟨?_, ?_⟩⟩
  · rcases m.fiber_pc h₁ with ⟨rfl, rfl⟩ | ⟨hw₁, hne, h₁⟩ <;>
      rcases m.fiber_pc h₂ with ⟨rfl, hf⟩ | ⟨hw₂, hne', h₂⟩
    · rfl
    · exact absurd rfl hne'
    · exact absurd hf hne
    · exact k.unique w₁ w₂ f' h₁ h₂
  · rcases m.fiber_pc h with ⟨rfl, rfl⟩ | ⟨hw, hne, hold⟩
    · exact ⟨r, m.fiber_self, m.engaged h⟩
    · obtain ⟨r', hr', he⟩ := k.engaged w' f' hold
      refine ⟨r', (m.fiber_other hne).trans hr', ?_⟩
      rwa [m.woken f' hne, m.pc_other hw, propext (m.queued f' hne)]
  · by_cases hf : f' = f
    · subst hf
      cases m.fiber_self.symm.trans hr'
      exact m.settled (hfree w)
    · rw [m.fiber_other hf] at hr'
      rw [m.woken f' hf, propext (m.queued f' hf)]
      refine k.settled f' r' hr' fun w' h => ?_
      by_cases hw : w' = w
      · subst hw
        exact hf (m.before f' h)
      · exact hfree w' ((m.pc_other hw).symm ▸ h)
  · have hne : f' ≠ f := by
      intro heq
      subst heq
      cases m.fiber_self.symm.trans hf'
    rw [m.fiber_other hne] at hf'
    rw [m.woken f' hne, m.queued f' hne]
    exact k.absent f' hf'
  · by_cases hf : f' = f
    · subst hf
      cases m.fiber_self.symm.trans hr'
      exact m.quiet
    · rw [m.fiber_other hf] at hr'
      rw [m.woken f' hf]
      exact k.quiet f' r' hr'
  · by_cases hw : w' = w
    · subst hw
      cases m.after f' (by rw [h]; rfl)
      exact m.owner st k' h
    · rw [m.pc_other hw] at h
      rw [m.worker w' hw]
      exact k.owner w' st k' f' h
  · by_cases hw : w' = w
    · subst hw
      rcases m.callback g h with ⟨hne, hold⟩ | ⟨rfl, horigin, hat⟩
      · obtain ⟨⟨r', hr', horigin, hat⟩, -⟩ := k.callback w' g hold
        refine ⟨r', (m.fiber_other hne).trans hr', horigin, .inr ?_⟩
        rcases hat with ⟨st, hat⟩ | ⟨hinit, -⟩
        · exact absurd (m.before g (by rw [hat]; rfl)) hne
        · exact ⟨hinit, fun hg => hne (m.after g hg)⟩
      · exact ⟨r, m.fiber_self, horigin, hat⟩
    · rw [m.worker w' hw] at h
      have hne : g ≠ f := fun heq => (m.alone w' hw).2.1 (heq ▸ h)
      rw [m.fiber_other hne, m.pc_other hw]
      exact (k.callback w' g h).1
  · exact m.owned_only (·.cbFiber) (fun v hv => (m.alone v hv).2.1)
      (fun g hg => (m.callback g hg).elim (fun h => .inr h.2) fun h => .inl h.1)
      (fun v g hg => (k.callback v g hg).2) h
  · by_cases hw : w' = w
    · subst hw
      rcases m.idle i h with ⟨hne, hold⟩ | ⟨rfl, horigin⟩
      · rw [m.fiber_other hne]
        exact (k.idle w' i hold).1
      · exact ⟨r, m.fiber_self, horigin⟩
    · rw [m.worker w' hw] at h
      have hne : i ≠ f := fun heq => (m.alone w' hw).2.2 (heq ▸ h)
      rw [m.fiber_other hne]
      exact (k.idle w' i h).1
  · exact m.owned_only (·.idleFiber) (fun v hv => (m.alone v hv).2.2)
      (fun g hg => (m.idle g hg).elim (fun h => .inr h.2) fun h => .inl h.1)
      (fun v g hg => (k.idle v g hg).2) h

omit [DecidableEq φ] in
/-- A worker's fiber is of no concern to other workers. -/
theorem Safe.alone (k : Safe s) (h : (s.pc w).fiber = some f) (w' : ω) (hw : w' ≠ w) :
    (s.pc w').fiber ≠ some f ∧ (s.worker w').cbFiber ≠ some f ∧ (s.worker w').idleFiber ≠ some f :=
  ⟨fun h' => hw (k.unique w' w f h' h), fun h' => hw ((k.callback w' f h').2 w (.inl h)).symm,
    fun h' => hw ((k.idle w' f h').2 w (.inl h)).symm⟩

variable [DecidableEq ω]

omit [DecidableEq ω] in
/-- The worker's own fiber for `idle` stays one if its record is written. -/
theorem Safe.idle_own (k : Safe s) (hr : s.fiber f = some r) {r' : Fiber κ} (horigin : r'.origin = r.origin)
    {i : φ} (hi : (s.worker w).idleFiber = some i) :
    (i ≠ f ∧ (s.worker w).idleFiber = some i) ∨ (i = f ∧ r'.origin = .idle) := by
  by_cases hif : i = f
  · subst hif
    obtain ⟨⟨r₀, hr₀, hidle⟩, -⟩ := k.idle w i hi
    cases hr.symm.trans hr₀
    exact .inr ⟨rfl, horigin.trans hidle⟩
  · exact .inl ⟨hif, hi⟩

/-- A worker goes on with its fiber. -/
theorem Safe.advance (k : Safe s) {st : Stage} {kd : Kind} (hpc : s.pc w = .inside st kd f)
    (hr : s.fiber f = some r) (r' : Fiber κ) {b : Bool} {st' : Stage} (horigin : r'.origin = r.origin)
    (hquiet : Quiet r' b) (he : Engaged r' b (f ∈ s.queued) (.inside st' kd f)) :
    Safe { s with
      fiber := Function.update s.fiber f (some r')
      worker := Function.update s.worker w { s.worker w with pc := .inside st' kd f }
      woken := Function.update s.woken f b } := by
  have hat : (s.pc w).fiber = some f := by rw [hpc]; rfl
  refine k.move (w := w) (f := f) (r := r') ⟨k.fault, k.nonempty, k.nodup,
    fun w' hw => Function.update_of_ne hw .., rfl, fun f' hf => Function.update_of_ne hf ..,
    fun _ _ => Iff.rfl, fun f' hf => Option.some.inj (hf.symm.trans hat), ?_, k.alone hat, ?_, ?_, ?_,
    ?_, ?_, ?_⟩ <;> simp only [State.pc, Function.update_self]
  · exact fun f' hf => (Option.some.inj hf).symm
  · exact fun _ => he
  · exact fun hne => absurd rfl hne
  · exact hquiet
  · intro st'' kd' heq
    cases heq
    exact k.owner w st kd f hpc
  · intro g hg
    by_cases hgf : g = f
    · subst hgf
      obtain ⟨⟨r₀, hr₀, hcb, hin⟩, -⟩ := k.callback w g hg
      cases hr.symm.trans hr₀
      refine .inr ⟨rfl, horigin.trans hcb, ?_⟩
      rcases hin with ⟨st₀, hin⟩ | ⟨-, hout⟩
      · cases hpc.symm.trans hin
        exact .inl ⟨st', rfl⟩
      · exact absurd hat hout
    · exact .inl ⟨hgf, hg⟩
  · exact fun i hi => k.idle_own hr horigin hi

/-- A worker is done with its fiber. -/
theorem Safe.rest (k : Safe s) {st : Stage} {kd : Kind} (hpc : s.pc w = .inside st kd f)
    (hr : s.fiber f = some r) (r' : Fiber κ) (horigin : r'.origin = r.origin)
    (hquiet : Quiet r' (s.woken f)) (hset : Settled r' (s.woken f) (f ∈ s.queued)) {cb : Option φ}
    (hcb : cb = none ∨ (cb = (s.worker w).cbFiber ∧ (kd = .callback → r'.state = .init))) :
    Safe { s with
      fiber := Function.update s.fiber f (some r')
      worker := Function.update s.worker w { s.worker w with pc := .top, cbFiber := cb } } := by
  have hat : (s.pc w).fiber = some f := by rw [hpc]; rfl
  refine k.move (w := w) (f := f) (r := r') ⟨k.fault, k.nonempty, k.nodup,
    fun w' hw => Function.update_of_ne hw .., rfl, fun _ _ => rfl,
    fun _ _ => Iff.rfl, fun f' hf => Option.some.inj (hf.symm.trans hat), ?_, k.alone hat, ?_, ?_, ?_,
    ?_, ?_, ?_⟩ <;> simp only [State.pc, Function.update_self]
  · exact fun f' hf => nomatch hf
  · exact fun hf => nomatch hf
  · exact fun _ => hset
  · exact hquiet
  · exact fun st'' kd' heq => nomatch heq
  · intro g hg
    rcases hcb with rfl | ⟨rfl, hinit⟩
    · cases hg
    · by_cases hgf : g = f
      · subst hgf
        obtain ⟨⟨r₀, hr₀, hcb, hin⟩, -⟩ := k.callback w g hg
        cases hr.symm.trans hr₀
        refine .inr ⟨rfl, horigin.trans hcb, .inr ⟨?_, fun h => nomatch h⟩⟩
        rcases hin with ⟨st₀, hin⟩ | ⟨-, hout⟩
        · cases hpc.symm.trans hin
          exact hinit rfl
        · exact absurd hat hout
      · exact .inl ⟨hgf, hg⟩
  · exact fun i hi => k.idle_own hr horigin hi

omit [DecidableEq φ] [DecidableEq ω] in
/-- The counts are of no concern. -/
theorem Safe.counts (k : Safe s) (a i : Int) :
    Safe { s with activeThreadCount := a, idleThreadCount := i } :=
  ⟨k.fault, k.nonempty, k.nodup, k.unique, k.engaged, k.settled, k.absent, k.quiet, k.owner, k.callback,
    k.idle⟩

end

end ShioSylar.Scheduler.Workers
