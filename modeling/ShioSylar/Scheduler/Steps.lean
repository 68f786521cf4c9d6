import ShioSylar.Scheduler.Safe

/-! Each step of the workers, and of those who hand fibers to them, keeps `Safe`. -/
namespace ShioSylar.Scheduler.Workers

variable {ω φ κ : Type}

/-- A fiber may be queued for a suspension, or by its creator for its first run. -/
def State.wakeable (s : State ω φ κ) (f : φ) : Bool :=
  (s.fiber f).any fun r => r.state = .exec ∨ r.state = .hold ∨ (r.state = .init ∧ r.origin = .user)

section
variable [DecidableEq φ] [DecidableEq ω] {s t : State ω φ κ} {w : ω} {f : φ} {r : Fiber κ}

/-! ### Threads, fibers and nodes that come in -/

omit [DecidableEq φ] [DecidableEq ω] in
/-- Nobody has to do with an address where no fiber is. -/
theorem Safe.nobody (k : Safe s) (hf : s.fiber f = none) (w' : ω) :
    (s.pc w').fiber ≠ some f ∧ (s.worker w').cbFiber ≠ some f ∧ (s.worker w').idleFiber ≠ some f := by
  refine ⟨fun h => ?_, fun h => ?_, fun h => ?_⟩
  · obtain ⟨r, hr, -⟩ := k.engaged w' f h
    cases hf.symm.trans hr
  · obtain ⟨⟨r, hr, -⟩, -⟩ := k.callback w' f h
    cases hf.symm.trans hr
  · obtain ⟨⟨r, hr, -⟩, -⟩ := k.idle w' f h
    cases hf.symm.trans hr

omit [DecidableEq φ] [DecidableEq ω] in
/-- A new fiber is at rest. -/
theorem Safe.fresh (k : Safe s) (hf : s.fiber f = none) (cb : Option κ) (o : Origin) :
    Settled { cb := cb, origin := o } (s.woken f) (f ∈ s.queued) ∧
      Quiet ({ cb := cb, origin := o } : Fiber κ) (s.woken f) := by
  obtain ⟨hw, hq⟩ := k.absent f hf
  rw [hw]
  refine ⟨⟨rfl, by simp, by simp, ?_, Bool.noConfusion⟩, fun _ => ⟨rfl, by simp⟩⟩
  exact ⟨Bool.noConfusion, fun h => absurd h hq⟩

theorem Safe.enter (k : Safe s) (hpc : s.pc w = .out) (hf : s.fiber f = none) :
    Safe { s with
      fiber := Function.update s.fiber f (some { cb := none, origin := .idle })
      worker := Function.update s.worker w { pc := .top, idleFiber := some f } } := by
  obtain ⟨hset, hquiet⟩ := k.fresh hf none .idle
  refine k.move (w := w) (f := f) (r := { cb := none, origin := .idle }) ⟨k.fault, k.nonempty, k.nodup,
    fun w' hw => Function.update_of_ne hw .., rfl, fun _ _ => rfl, fun _ _ => Iff.rfl, ?_, ?_,
    fun w' _ => k.nobody hf w', ?_, ?_, hquiet, ?_, ?_, ?_⟩ <;>
    simp only [State.pc, Function.update_self]
  · intro f' hf'
    have hpc' : (s.worker w).pc = .out := hpc
    rw [hpc'] at hf'
    cases hf'
  · exact fun f' hf' => by cases hf'
  · exact fun hf' => by cases hf'
  · exact fun _ => hset
  · exact fun st kd heq => by cases heq
  · exact fun g hg => by cases hg
  · intro i hi
    cases hi
    exact .inr ⟨rfl, trivial⟩

omit [DecidableEq ω] in
theorem Safe.create (k : Safe s) (hf : s.fiber f = none) (cb : κ) :
    Safe { s with fiber := Function.update s.fiber f (some { cb := some cb, origin := .user }) } := by
  obtain ⟨hset, hquiet⟩ := k.fresh hf (some cb) .user
  have hother : ∀ {f' : φ} {r' : Fiber κ}, s.fiber f' = some r' →
      Function.update s.fiber f (some { cb := some cb, origin := .user }) f' = some r' := by
    intro f' r' hr'
    rw [Function.update_of_ne, hr']
    intro heq
    subst heq
    cases hf.symm.trans hr'
  have hcases : ∀ {f' : φ} {r' : Fiber κ},
      Function.update s.fiber f (some { cb := some cb, origin := .user }) f' = some r' →
      (f' = f ∧ r' = { cb := some cb, origin := .user }) ∨ s.fiber f' = some r' := by
    intro f' r' hr'
    by_cases heq : f' = f
    · subst heq
      rw [Function.update_self] at hr'
      exact .inl ⟨rfl, (Option.some.inj hr').symm⟩
    · rw [Function.update_of_ne heq] at hr'
      exact .inr hr'
  refine ⟨k.fault, k.nonempty, k.nodup, k.unique, fun w' f' h => ?_, fun f' r' hr' hfree => ?_,
    fun f' hf' => ?_, fun f' r' hr' => ?_, k.owner, fun w' g h => ?_, fun w' i h => ?_⟩
  · obtain ⟨r', hr', he⟩ := k.engaged w' f' h
    exact ⟨r', hother hr', he⟩
  · rcases hcases hr' with ⟨rfl, rfl⟩ | hr'
    · exact hset
    · exact k.settled f' r' hr' hfree
  · refine k.absent f' ?_
    by_contra hne
    obtain ⟨r', hr'⟩ := Option.ne_none_iff_exists'.mp hne
    cases hf'.symm.trans (hother hr')
  · rcases hcases hr' with ⟨rfl, rfl⟩ | hr'
    · exact hquiet
    · exact k.quiet f' r' hr'
  · obtain ⟨⟨r', hr', hat⟩, honly⟩ := k.callback w' g h
    exact ⟨⟨r', hother hr', hat⟩, honly⟩
  · obtain ⟨⟨r', hr', horigin⟩, honly⟩ := k.idle w' i h
    exact ⟨⟨r', hother hr', horigin⟩, honly⟩

omit [DecidableEq ω] in
theorem queued_schedule (s : State ω φ κ) (nodes : List (FiberAndThread φ κ)) :
    (s.schedule nodes).queued = s.queued ++ nodes.filterMap (·.fiber) := by
  simp only [State.queued, State.schedule, scheduleAll_eq, List.filterMap_append]
  congr 1
  induction nodes with
  | nil => rfl
  | cons ft rest ih =>
    cases hf : ft.fiber with
    | none => cases hne : ft.nonempty <;> simp [hne, hf, ih]
    | some f =>
      have hne : ft.nonempty = true := by simp [FiberAndThread.nonempty, hf]
      simp [hne, hf, ih]

omit [DecidableEq ω] in
theorem woken_schedule (s : State ω φ κ) (nodes : List (FiberAndThread φ κ)) (f : φ) :
    (s.schedule nodes).woken f = true ↔ s.woken f = true ∨ f ∈ nodes.filterMap (·.fiber) := by
  simp [State.schedule]

/-- What a push does to one fiber: nothing, or it is now woken and queued. -/
theorem pushed_iff {b b' : Bool} {q q' p : Prop} (hb : b' = true ↔ b = true ∨ p) (hq : q' ↔ q ∨ p)
    (h : b = true ↔ q) : b' = true ↔ q' := by
  rw [hb, hq, h]

omit [DecidableEq φ] [DecidableEq ω] in
/-- What is queued has been woken. -/
theorem Safe.queued_woken (k : Safe s) (hq : f ∈ s.queued) : s.woken f = true := by
  cases hr : s.fiber f with
  | none => exact absurd hq (k.absent f hr).2
  | some r =>
    by_cases hfree : ∀ w, (s.pc w).fiber ≠ some f
    · exact (k.settled f r hr hfree).2.2.2.1.mpr hq
    · simp only [not_forall, not_not] at hfree
      obtain ⟨w, hw⟩ := hfree
      obtain ⟨r', -, he⟩ := k.engaged w f hw
      rcases hpc : s.pc w with _ | _ | ft | ⟨st, kd, f'⟩ | _ <;> rw [hpc] at hw he
      · cases hw
      · cases hw
      · exact absurd hq he.2.2
      · cases st
        · exact absurd hq he.2.2.1
        · exact he.2.2.mpr hq
        · exact he.2.2.mpr hq
        · exact he.2.1.mpr hq
        · exact he.2.1.mpr hq
        · exact he.2.1.mpr hq
        · exact he.2.2.mpr hq
      · cases hw

omit [DecidableEq φ] [DecidableEq ω] in
theorem wakeable_iff (hr : s.fiber f = some r) : s.wakeable f = true ↔
    r.state = .exec ∨ r.state = .hold ∨ (r.state = .init ∧ r.origin = .user) := by
  simp [State.wakeable, hr]

omit [DecidableEq φ] [DecidableEq ω] in
/-- What a worker has taken to start it cannot be woken. -/
theorem Safe.entry_not_wakeable (k : Safe s) {kd : Kind} (hpc : s.pc w = .inside .entry kd f)
    (hwoken : s.woken f = false) (hshared : s.shared f = true) : s.wakeable f = false := by
  obtain ⟨r, hr, hstart, htask, -, hinit⟩ := by
    have he := k.engaged w f (by rw [hpc]; rfl)
    rwa [hpc] at he
  rw [Bool.eq_false_iff, Ne, wakeable_iff hr]
  intro hstate
  obtain ⟨hcb, hid⟩ := k.owner w .entry kd f hpc
  cases kd with
  | task => cases hwoken.symm.trans (htask.mpr rfl)
  | callback =>
    obtain ⟨⟨r', hr', horigin, -⟩, -⟩ := k.callback w f (hcb rfl)
    cases hr.symm.trans hr'
    rw [hinit rfl, horigin] at hstate
    simp at hstate
  | idle =>
    obtain ⟨⟨r', hr', horigin⟩, -⟩ := k.idle w f (hid rfl)
    cases hr.symm.trans hr'
    simp [State.shared, hr, horigin] at hshared

omit [DecidableEq φ] [DecidableEq ω] in
/-- A fiber that is woken while a worker is engaged with it is EXEC, and stays so. -/
theorem Safe.engaged_pushed (k : Safe s) (h : (s.pc w).fiber = some f) (hr : s.fiber f = some r)
    (he : Engaged r (s.woken f) (f ∈ s.queued) (s.pc w)) (hno : s.woken f = false)
    (hcan : s.wakeable f = true) (hshared : s.shared f = true) {b : Bool} {q : Prop}
    (hiff : (s.woken f = true ↔ f ∈ s.queued) → (b = true ↔ q)) : Engaged r b q (s.pc w) := by
  have hactive : r.Active (s.woken f) (f ∈ s.queued) → r.Active b q := by
    intro hactive
    obtain ⟨hwq, hexec | ⟨hend, -⟩⟩ := hactive
    · exact ⟨hiff hwq, .inl hexec⟩
    · rcases (wakeable_iff hr).mp hcan with hs | hs | ⟨hs, -⟩ <;> simp [Fiber.ended, hs] at hend
  rcases hpc : s.pc w with _ | _ | ft | ⟨st, kd, f'⟩ | _ <;> rw [hpc] at h he
  · cases h
  · cases h
  · cases hno.symm.trans he.2.1
  · cases h
    cases st with
    | entry => cases (k.entry_not_wakeable hpc hno hshared).symm.trans hcan
    | entered => exact ⟨he.1, he.2.1, hiff he.2.2⟩
    | running => exact ⟨he.1, he.2.1, hiff he.2.2⟩
    | leaving => exact ⟨he.1, hactive he.2⟩
    | back => exact ⟨he.1, hactive he.2⟩
    | check => exact ⟨he.1, hactive he.2⟩
    | hold => exact ⟨he.1, he.2.1, hiff he.2.2⟩
  · cases h

omit [DecidableEq ω] in
theorem Safe.schedule (k : Safe s) {nodes : List (FiberAndThread φ κ)}
    (hnd : (nodes.filterMap (·.fiber)).Nodup)
    (hwake : ∀ f ∈ nodes.filterMap (·.fiber), s.woken f = false ∧ s.wakeable f = true)
    (hshared : ∀ f ∈ nodes.filterMap (·.fiber), s.shared f = true) : Safe (s.schedule nodes) := by
  have hw := woken_schedule s nodes
  have hq : ∀ f, f ∈ (s.schedule nodes).queued ↔ f ∈ s.queued ∨ f ∈ nodes.filterMap (·.fiber) := fun f => by
    rw [queued_schedule, List.mem_append]
  generalize hpushed : nodes.filterMap (·.fiber) = pushed at hw hq hnd hwake hshared
  have hiff : ∀ f, (s.woken f = true ↔ f ∈ s.queued) →
      ((s.schedule nodes).woken f = true ↔ f ∈ (s.schedule nodes).queued) := fun f h =>
    pushed_iff (hw f) (hq f) h
  have hold : ∀ f, f ∉ pushed → (s.schedule nodes).woken f = s.woken f ∧
      (f ∈ (s.schedule nodes).queued ↔ f ∈ s.queued) := fun f hf =>
    ⟨by rw [Bool.eq_iff_iff, hw f]; simp [hf], by rw [hq f]; simp [hf]⟩
  refine ⟨k.fault, scheduleAll_nonempty nodes k.nonempty, ?_, k.unique, fun w f h => ?_,
    fun f r hr hfree => ?_, fun f hf => ?_, fun f r hr => ?_, k.owner, k.callback, k.idle⟩
  · rw [queued_schedule, hpushed]
    refine List.nodup_append.mpr ⟨k.nodup, hnd, ?_⟩
    intro f hf f' hf' heq
    subst heq
    cases (k.queued_woken hf).symm.trans (hwake f hf').1
  · have h : (s.pc w).fiber = some f := h
    obtain ⟨r, hr, he⟩ := k.engaged w f h
    refine ⟨r, hr, ?_⟩
    show Engaged r _ _ (s.pc w)
    by_cases hf : f ∈ pushed
    · exact k.engaged_pushed h hr he (hwake f hf).1 (hwake f hf).2 (hshared f hf) (hiff f)
    · rw [(hold f hf).1, propext (hold f hf).2]
      exact he
  · obtain ⟨hsaved, hexec, hready, hwq, hstate⟩ := k.settled f r hr hfree
    refine ⟨hsaved, hexec, hready, hiff f hwq, fun hwoken => ?_⟩
    rcases (hw f).mp hwoken with hwoken | hf
    · exact hstate hwoken
    · exact ((wakeable_iff hr).mp (hwake f hf).2).resolve_left hexec
  · obtain ⟨hno, hnq⟩ := k.absent f hf
    have hf : s.fiber f = none := hf
    have hnp : f ∉ pushed := fun hp => by
      have hcan := (hwake f hp).2
      rw [State.wakeable, hf] at hcan
      cases hcan
    rw [(hold f hnp).1, (hold f hnp).2]
    exact ⟨hno, hnq⟩
  · intro horigin
    have hnp : f ∉ pushed := fun hp => by
      have hown := hshared f hp
      have hr : s.fiber f = some r := hr
      simp [State.shared, hr, horigin] at hown
    rw [(hold f hnp).1]
    exact k.quiet f r hr horigin

/-! ### The steps of a worker -/

omit [DecidableEq ω] in
theorem modify_cases {op : Fiber κ → Except Fault (Fiber κ)} {next : State ω φ κ → State ω φ κ}
    (h : s.modify f op next = some t) (hr : s.fiber f = some r) :
    (∃ r', op r = .ok r' ∧ t = next { s with fiber := Function.update s.fiber f (some r') }) ∨
      ∃ e, op r = .error e := by
  simp only [State.modify, hr] at h
  cases ho : op r with
  | ok r' =>
    rw [ho] at h
    exact .inl ⟨r', rfl, (Option.some.inj h).symm⟩
  | error e => exact .inr ⟨e, rfl⟩

omit [DecidableEq φ] [DecidableEq ω] in
/-- A worker inside a stage, with the record of its fiber. -/
theorem Safe.here (k : Safe s) {st : Stage} {kd : Kind} (hpc : s.pc w = .inside st kd f) :
    ∃ r, s.fiber f = some r ∧ Engaged r (s.woken f) (f ∈ s.queued) (.inside st kd f) ∧
      Quiet r (s.woken f) := by
  obtain ⟨r, hr, he⟩ := k.engaged w f (by rw [hpc]; rfl)
  rw [hpc] at he
  exact ⟨r, hr, he, k.quiet f r hr⟩

/-- `advance` where the fiber is not woken or unwoken. -/
theorem Safe.advance_goto (k : Safe s) {st : Stage} {kd : Kind} (hpc : s.pc w = .inside st kd f)
    (hr : s.fiber f = some r) (r' : Fiber κ) {st' : Stage} (horigin : r'.origin = r.origin)
    (hquiet : Quiet r' (s.woken f)) (he : Engaged r' (s.woken f) (f ∈ s.queued) (.inside st' kd f)) :
    Safe (State.goto { s with fiber := Function.update s.fiber f (some r') } w (.inside st' kd f)) := by
  have hs := k.advance hpc hr r' horigin hquiet he
  rwa [Function.update_eq_self] at hs

theorem Safe.swapIn (k : Safe s) {kd : Kind} (hpc : s.pc w = .inside .entry kd f)
    (h : (s.modify f (·.swapIn) fun s =>
      { s.goto w (.inside .entered kd f) with woken := Function.update s.woken f false }) = some t) :
    Safe t := by
  obtain ⟨r, hr, ⟨⟨hsaved, hstate⟩, -, hnq, -⟩, hquiet⟩ := k.here hpc
  have hne : r.state ≠ .exec := by rcases hstate with hs | hs <;> simp [hs]
  rcases modify_cases h hr with ⟨r', ho, rfl⟩ | ⟨e, ho⟩ <;> simp only [Fiber.swapIn, if_neg hne] at ho
  · cases ho
    refine k.advance hpc hr _ rfl (fun _ => ⟨rfl, by simp⟩) ⟨hsaved, rfl, ?_⟩
    exact ⟨Bool.noConfusion, fun hq => absurd hq hnq⟩
  · cases ho

theorem Safe.switchTo (k : Safe s) {kd : Kind} (hpc : s.pc w = .inside .entered kd f)
    (h : (s.modify f (·.switchTo) fun s => s.goto w (.inside .running kd f)) = some t) : Safe t := by
  obtain ⟨r, hr, ⟨hsaved, hexec, hwq⟩, hquiet⟩ := k.here hpc
  rcases modify_cases h hr with ⟨r', ho, rfl⟩ | ⟨e, ho⟩ <;> simp only [Fiber.switchTo, if_pos hsaved] at ho
  · cases ho
    exact k.advance_goto hpc hr _ rfl hquiet ⟨rfl, hexec, hwq⟩
  · cases ho

theorem Safe.switchFrom (k : Safe s) {kd : Kind} (hpc : s.pc w = .inside .leaving kd f)
    (h : (s.modify f (·.switchFrom) fun s => s.goto w (.inside .back kd f)) = some t) : Safe t := by
  obtain ⟨r, hr, ⟨-, hactive⟩, hquiet⟩ := k.here hpc
  rcases modify_cases h hr with ⟨r', ho, rfl⟩ | ⟨e, ho⟩
  · cases ho
    exact k.advance_goto hpc hr _ rfl hquiet ⟨rfl, hactive⟩
  · cases ho

/-- A step that leaves the record of the fiber as it is. -/
theorem Safe.goto (k : Safe s) {st : Stage} {kd : Kind} (hpc : s.pc w = .inside st kd f)
    (hr : s.fiber f = some r) {st' : Stage}
    (he : Engaged r (s.woken f) (f ∈ s.queued) (.inside st' kd f)) :
    Safe (s.goto w (.inside st' kd f)) := by
  have hs := k.advance_goto hpc hr r rfl (k.quiet f r hr) he
  rwa [← hr, Function.update_eq_self] at hs

theorem Safe.back (k : Safe s) {kd : Kind} (hpc : s.pc w = .inside .back kd f) :
    Safe (s.goto w (.inside .check kd f)) := by
  obtain ⟨r, hr, he, -⟩ := k.here hpc
  exact k.goto hpc hr he

theorem Safe.yield (k : Safe s) {kd : Kind} (hpc : s.pc w = .inside .running kd f)
    (h : (s.modify f (·.yieldToHold) fun s => s.goto w (.inside .leaving kd f)) = some t) : Safe t := by
  obtain ⟨r, hr, ⟨hsaved, hexec, hwq⟩, hquiet⟩ := k.here hpc
  rcases modify_cases h hr with ⟨r', ho, rfl⟩ | ⟨e, ho⟩ <;>
    simp only [Fiber.yieldToHold, if_pos hexec] at ho
  · cases ho
    exact k.advance_goto hpc hr _ rfl hquiet ⟨hsaved, hwq, .inl hexec⟩
  · cases ho

theorem Safe.finish (k : Safe s) {kd : Kind} {threw : Bool} (hpc : s.pc w = .inside .running kd f)
    (hwoken : s.woken f = false) (hthrew : threw = true → s.shared f = true)
    (h : (s.modify f (·.finish threw) fun s => s.goto w (.inside .leaving kd f)) = some t) : Safe t := by
  obtain ⟨r, hr, ⟨hsaved, -, hwq⟩, -⟩ := k.here hpc
  rcases modify_cases h hr with ⟨r', ho, rfl⟩ | ⟨e, ho⟩ <;> simp only [Fiber.finish] at ho
  · cases ho
    cases threw with
    | true =>
      refine k.advance_goto hpc hr { r with state := .except } rfl (fun horigin => ?_)
        ⟨hsaved, hwq, .inr ⟨rfl, hwoken⟩⟩
      have horigin : r.origin = .idle := horigin
      simp [State.shared, hr, horigin] at hthrew
    | false =>
      refine k.advance_goto hpc hr { r with cb := none, state := .term } rfl
        (fun _ => ⟨hwoken, by simp⟩) ⟨hsaved, hwq, .inr ⟨rfl, hwoken⟩⟩
  · cases ho

theorem Safe.hold (k : Safe s) {kd : Kind} (hpc : s.pc w = .inside .hold kd f)
    (h : (s.modify f (·.hold) fun s => if kd = .callback then
        { s with worker := Function.update s.worker w { s.worker w with pc := .top, cbFiber := none } }
      else s.goto w .top) = some t) : Safe t := by
  obtain ⟨r, hr, ⟨hsaved, -, hwq⟩, hquiet⟩ := k.here hpc
  rcases modify_cases h hr with ⟨r', ho, rfl⟩ | ⟨e, ho⟩
  · cases ho
    have hset : Settled { r with state := .hold } (s.woken f) (f ∈ s.queued) :=
      ⟨hsaved, by simp, by simp, hwq, fun _ => .inl rfl⟩
    have hq : Quiet { r with state := .hold } (s.woken f) := fun ho => ⟨(hquiet ho).1, by simp⟩
    by_cases hcb : kd = .callback
    · rw [if_pos hcb]
      exact k.rest hpc hr { r with state := .hold } rfl hq hset (.inl rfl)
    · rw [if_neg hcb]
      exact k.rest hpc hr { r with state := .hold } rfl hq hset (.inr ⟨rfl, fun h => absurd h hcb⟩)
  · cases ho

theorem Safe.settle (k : Safe s) {kd : Kind} (hpc : s.pc w = .inside .check kd f)
    (h : s.settle w kd f = some t) : Safe t := by
  obtain ⟨r, hr, ⟨hsaved, hwq, hactive⟩, hquiet⟩ := k.here hpc
  have hready : ¬ (r.state = .ready ∧ kd ≠ .idle) := by
    intro hyield
    obtain ⟨hs, -⟩ := hyield
    rcases hactive with hexec | ⟨hend, -⟩
    · cases hs.symm.trans hexec
    · simp [Fiber.ended, hs] at hend
  simp only [State.settle, hr, if_neg hready] at h
  by_cases hend : r.ended = true
  · have hwoken : s.woken f = false := by
      rcases hactive with hexec | ⟨-, hwoken⟩
      · simp [Fiber.ended, hexec] at hend
      · exact hwoken
    have hreset : r.state = .term ∨ r.state = .except := by simpa [Fiber.ended] using hend
    rw [if_pos hend] at h
    by_cases hcb : kd = .callback
    · have hreset' : r.state = .term ∨ r.state = .except ∨ r.state = .init :=
        hreset.imp_right Or.inl
      rw [if_pos hcb] at h
      rcases modify_cases h hr with ⟨r', ho, rfl⟩ | ⟨e, ho⟩ <;>
        simp only [Fiber.reset, if_pos hreset'] at ho
      · cases ho
        refine k.rest hpc hr { r with cb := none, saved := true, state := .init } rfl
          (fun ho => ⟨(hquiet ho).1, by simp⟩) ?_ (.inr ⟨rfl, fun _ => rfl⟩)
        exact ⟨rfl, by simp, by simp, hwq, fun h => absurd h (by simp [hwoken])⟩
      · cases ho
    · rw [if_neg hcb] at h
      cases h
      have hset : Settled r (s.woken f) (f ∈ s.queued) := by
        refine ⟨hsaved, ?_, ?_, hwq, fun h => absurd h (by simp [hwoken])⟩ <;>
          rcases hreset with hs | hs <;> simp [hs]
      have hs := k.rest hpc hr r rfl hquiet hset (.inr ⟨rfl, fun h => absurd h hcb⟩)
      rwa [← hr, Function.update_eq_self] at hs
  · rw [if_neg hend] at h
    cases h
    exact k.goto hpc hr ⟨hsaved, hactive.resolve_right fun h => hend h.1, hwq⟩

/-! ### Between two fibers -/

omit [DecidableEq φ] in
/-- A worker moves between points where it has no fiber. -/
theorem Safe.wander (k : Safe s) (hpc : (s.pc w).fiber = none) (pc : Pc φ κ) (hnew : pc.fiber = none)
    {fibers : List (FiberAndThread φ κ)} (hne : ∀ it ∈ fibers, it.nonempty = true)
    (hq : fibers.filterMap (·.fiber) = s.queued) :
    Safe { s with
      fibers := fibers, worker := Function.update s.worker w { s.worker w with pc := pc } } := by
  generalize ht : ({ s with
    fibers := fibers
    worker := Function.update s.worker w { s.worker w with pc := pc } } : State ω φ κ) = t
  have hqueued : t.queued = s.queued := by rw [← ht]; exact hq
  have hpcs : ∀ w', w' ≠ w → t.pc w' = s.pc w' := fun w' hw => by
    simp [← ht, State.pc, hw]
  have hself : (t.pc w).fiber = none := by simp [← ht, State.pc, hnew]
  have hat : ∀ {w' f'}, (t.pc w').fiber = some f' → w' ≠ w ∧ (s.pc w').fiber = some f' := by
    intro w' f' h
    have hw : w' ≠ w := by
      intro heq
      subst heq
      cases hself.symm.trans h
    exact ⟨hw, hpcs w' hw ▸ h⟩
  have hfib : ∀ w' f', (t.pc w').fiber = some f' ↔ (s.pc w').fiber = some f' := by
    refine fun w' f' => ⟨fun h => (hat h).2, fun h => ?_⟩
    have hw : w' ≠ w := by
      intro heq
      subst heq
      cases hpc.symm.trans h
    rwa [hpcs w' hw]
  have howned : ∀ w', (t.worker w').cbFiber = (s.worker w').cbFiber ∧
      (t.worker w').idleFiber = (s.worker w').idleFiber := fun w' => by
    by_cases hw : w' = w
    · subst hw
      simp [← ht]
    · simp [← ht, hw]
  have hfiber : t.fiber = s.fiber := by rw [← ht]
  have hwoken : t.woken = s.woken := by rw [← ht]
  refine ⟨ht ▸ k.fault, ht ▸ hne, hqueued ▸ k.nodup, fun w₁ w₂ f' h₁ h₂ =>
    k.unique w₁ w₂ f' (hat h₁).2 (hat h₂).2, fun w' f' h => ?_, fun f' r' hr' hfree => ?_,
    fun f' hf' => ?_, fun f' r' hr' => ?_, fun w' st kd f' h => ?_, fun w' g h => ?_, fun w' i h => ?_⟩
  · obtain ⟨hw, h⟩ := hat h
    rw [hpcs w' hw, hfiber, hwoken, hqueued]
    exact k.engaged w' f' h
  · rw [hfiber] at hr'
    rw [hwoken, hqueued]
    exact k.settled f' r' hr' fun w' h => hfree w' ((hfib w' f').mpr h)
  · rw [hfiber] at hf'
    rw [hwoken, hqueued]
    exact k.absent f' hf'
  · rw [hfiber] at hr'
    rw [hwoken]
    exact k.quiet f' r' hr'
  · have hw := (hat (show (t.pc w').fiber = some f' by rw [h]; rfl)).1
    rw [(howned w').1, (howned w').2]
    exact k.owner w' st kd f' (hpcs w' hw ▸ h)
  · rw [(howned w').1] at h
    obtain ⟨⟨r', hr', horigin, hin⟩, honly⟩ := k.callback w' g h
    refine ⟨⟨r', by rw [hfiber, hr'], horigin, ?_⟩, fun w'' h'' => ?_⟩
    · rcases hin with ⟨st, hin⟩ | ⟨hinit, hout⟩
      · have hw : w' ≠ w := by
          intro heq
          subst heq
          rw [hin] at hpc
          cases hpc
        exact .inl ⟨st, (hpcs w' hw).trans hin⟩
      · exact .inr ⟨hinit, fun h => hout ((hfib w' g).mp h)⟩
    · rw [hfib, (howned w'').1] at h''
      exact honly w'' h''
  · rw [(howned w').2] at h
    obtain ⟨⟨r', hr', horigin⟩, honly⟩ := k.idle w' i h
    refine ⟨⟨r', by rw [hfiber, hr'], horigin⟩, fun w'' h'' => ?_⟩
    rw [hfib, (howned w'').2] at h''
    exact honly w'' h''

omit [DecidableEq φ] [DecidableEq ω] in
/-- A queued fiber that is not EXEC is with no worker. -/
theorem Safe.queued_free (k : Safe s) (hq : f ∈ s.queued) (hexec : s.isExec f = false) :
    ∃ r, s.fiber f = some r ∧ (∀ w, (s.pc w).fiber ≠ some f) ∧ r.saved = true ∧
      (r.state = .hold ∨ (r.state = .init ∧ r.origin = .user)) := by
  have hwoken := k.queued_woken hq
  cases hr : s.fiber f with
  | none => exact absurd hq (k.absent f hr).2
  | some r =>
    have hne : r.state ≠ .exec := by simpa [State.isExec, hr] using hexec
    have hactive : ¬ r.Active (s.woken f) (f ∈ s.queued) := by
      intro hactive
      obtain ⟨-, hs | ⟨-, hno⟩⟩ := hactive
      · exact hne hs
      · cases hwoken.symm.trans hno
    have hfree : ∀ w, (s.pc w).fiber ≠ some f := by
      intro w h
      obtain ⟨r', hr', he⟩ := k.engaged w f h
      cases hr.symm.trans hr'
      rcases hpc : s.pc w with _ | _ | ft | ⟨st, kd, f'⟩ | _ <;> rw [hpc] at h he
      · cases h
      · cases h
      · exact he.2.2 hq
      · cases st with
        | entry => exact he.2.2.1 hq
        | entered => exact hne he.2.1
        | running => exact hne he.2.1
        | leaving => exact hactive he.2
        | back => exact hactive he.2
        | check => exact hactive he.2
        | hold => exact hne he.2.1
      · cases h
    obtain ⟨hsaved, -, -, -, hstate⟩ := k.settled f r hr hfree
    exact ⟨r, rfl, hfree, hsaved, hstate hwoken⟩

omit [DecidableEq φ] [DecidableEq ω] in
/-- A queued fiber is no worker's own. -/
theorem Safe.queued_not_owned (k : Safe s) (hq : f ∈ s.queued) (hexec : s.isExec f = false) (w' : ω) :
    (s.worker w').cbFiber ≠ some f ∧ (s.worker w').idleFiber ≠ some f := by
  obtain ⟨r, hr, hfree, -, hstate⟩ := k.queued_free hq hexec
  refine ⟨fun h => ?_, fun h => ?_⟩
  · obtain ⟨⟨r', hr', horigin, hin⟩, -⟩ := k.callback w' f h
    cases hr.symm.trans hr'
    rcases hin with ⟨st, hin⟩ | ⟨hinit, -⟩
    · exact hfree w' (by rw [hin]; rfl)
    · rw [hinit, horigin] at hstate
      simp at hstate
  · obtain ⟨⟨r', hr', horigin⟩, -⟩ := k.idle w' f h
    cases hr.symm.trans hr'
    cases (k.queued_woken hq).symm.trans (k.quiet f r hr horigin).1

theorem Safe.fetch (k : Safe s) (thread : Int) (hpc : s.pc w = .top) {x : Fetched φ κ}
    (hx : fetch thread s.isExec s.fibers = some x) :
    Safe { s with
      fibers := x.fibers
      worker := Function.update s.worker w { s.worker w with pc := .chosen x.task } } := by
  have hout : (s.pc w).fiber = none := by rw [hpc]; rfl
  obtain ⟨x', hx', hspec⟩ := @fetch_spec _ _ thread s.isExec _ k.nonempty
  cases hx.symm.trans hx'
  cases htask : x.task with
  | none =>
    simp only [htask] at hspec
    rw [hspec.1]
    exact k.wander hout (.chosen none) rfl k.nonempty rfl
  | some it =>
    simp only [htask] at hspec
    obtain ⟨⟨-, hexec⟩, before, after, hfibers, hrest, -⟩ := hspec
    have hne : ∀ y ∈ x.fibers, y.nonempty = true := by
      intro y hy
      refine k.nonempty y ?_
      rw [hrest, List.mem_append] at hy
      rw [hfibers, List.mem_append, List.mem_cons]
      exact hy.imp_right Or.inr
    cases hf : it.fiber with
    | none =>
      refine k.wander hout (.chosen (some it)) (by simp [Pc.fiber, hf]) hne ?_
      simp [State.queued, hfibers, hrest, hf]
    | some f =>
      have hqueued : s.queued = before.filterMap (·.fiber) ++ f :: after.filterMap (·.fiber) := by
        simp [State.queued, hfibers, hf]
      have hleft : x.fibers.filterMap (·.fiber) =
          before.filterMap (·.fiber) ++ after.filterMap (·.fiber) := by simp [hrest]
      have hq : f ∈ s.queued := by simp [hqueued]
      have hexecf : s.isExec f = false := by simpa [hf] using hexec
      obtain ⟨r, hr, hfree, hsaved, hstate⟩ := k.queued_free hq hexecf
      have hother : ∀ f', f' ≠ f → (f' ∈ x.fibers.filterMap (·.fiber) ↔ f' ∈ s.queued) := fun f' hf' => by
        simp [hleft, hqueued, hf']
      have hnd := k.nodup
      rw [hqueued, List.perm_middle.nodup_iff, ← hleft, List.nodup_cons] at hnd
      refine k.move (w := w) (f := f) (r := r) ⟨k.fault, hne, hnd.2,
        fun w' hw => Function.update_of_ne hw .., by rw [← hr, Function.update_eq_self], fun _ _ => rfl,
        hother, fun f' hf' => (by cases hout.symm.trans hf'), ?_,
        fun w' _ => ⟨hfree w', (k.queued_not_owned hq hexecf w').1, (k.queued_not_owned hq hexecf w').2⟩,
        ?_, ?_, k.quiet f r hr, ?_, ?_, ?_⟩ <;> simp only [State.pc, Function.update_self]
      · intro f' hf'
        simpa [Pc.fiber, hf] using hf'.symm
      · exact fun _ => ⟨⟨hsaved, hstate.symm.imp And.left id⟩, k.queued_woken hq, hnd.1⟩
      · intro hne'
        simp [Pc.fiber, hf] at hne'
      · exact fun st kd heq => by cases heq
      · intro g hg
        refine .inl ⟨?_, hg⟩
        intro heq
        subst heq
        exact (k.queued_not_owned hq hexecf w).1 hg
      · intro i hi
        refine .inl ⟨?_, hi⟩
        intro heq
        subst heq
        exact (k.queued_not_owned hq hexecf w).2 hi

/-! ### What a worker does with what it took -/

/-- A worker takes a fiber of its own that is at rest. -/
theorem Safe.engage (k : Safe s) (hout : (s.pc w).fiber = none) (kd : Kind) (cb : Option φ) (r : Fiber κ)
    (halone : ∀ w', w' ≠ w → (s.pc w').fiber ≠ some f ∧ (s.worker w').cbFiber ≠ some f ∧
      (s.worker w').idleFiber ≠ some f)
    (hstart : r.Startable) (hquiet : Quiet r (s.woken f)) (hwoken : s.woken f = false)
    (hq : f ∉ s.queued)
    (hcb : (kd = .callback ∧ cb = some f ∧ r.origin = .callback ∧ r.state = .init ∧
        (s.worker w).idleFiber ≠ some f) ∨
      (kd = .idle ∧ cb = (s.worker w).cbFiber ∧ cb ≠ some f ∧ r.origin = .idle ∧
        (s.worker w).idleFiber = some f)) :
    Safe { s with
      fiber := Function.update s.fiber f (some r)
      worker := Function.update s.worker w { s.worker w with pc := .inside .entry kd f, cbFiber := cb } } := by
  refine k.move (w := w) (f := f) (r := r) ⟨k.fault, k.nonempty, k.nodup,
    fun w' hw => Function.update_of_ne hw .., rfl, fun _ _ => rfl, fun _ _ => Iff.rfl,
    fun f' hf' => (by cases hout.symm.trans hf'), ?_, halone, ?_, ?_, hquiet, ?_, ?_, ?_⟩ <;>
    simp only [State.pc, Function.update_self]
  · exact fun f' hf' => (Option.some.inj hf').symm
  · intro _
    refine ⟨hstart, ?_, hq, ?_⟩
    · show s.woken f = true ↔ kd = .task
      rcases hcb with ⟨rfl, -⟩ | ⟨rfl, -⟩ <;> simp [hwoken]
    · intro heq
      subst heq
      rcases hcb with ⟨-, -, -, hinit, -⟩ | ⟨hkd, -⟩
      · exact hinit
      · cases hkd
  · exact fun hne => absurd rfl hne
  · intro st kd' heq
    cases heq
    rcases hcb with ⟨rfl, rfl, -⟩ | ⟨rfl, -, -, -, hidle⟩
    · exact ⟨fun _ => rfl, fun h => by cases h⟩
    · exact ⟨fun h => (by cases h), fun _ => hidle⟩
  · intro g hg
    rcases hcb with ⟨rfl, rfl, horigin, -⟩ | ⟨-, rfl, hne, -⟩
    · cases hg
      exact .inr ⟨rfl, horigin, .inl ⟨.entry, rfl⟩⟩
    · exact .inl ⟨fun heq => hne (heq ▸ hg), hg⟩
  · intro i hi
    rcases hcb with ⟨-, -, -, -, hne⟩ | ⟨-, -, -, horigin, hidle⟩
    · exact .inl ⟨fun heq => hne (heq ▸ hi), hi⟩
    · cases hidle.symm.trans hi
      exact .inr ⟨rfl, horigin⟩

/-- A fiber that was taken is switched to. -/
theorem Safe.chosen (k : Safe s) {ft : Option (FiberAndThread φ κ)} (hpc : s.pc w = .chosen ft)
    (hf : ft.bind (·.fiber) = some f) :
    s.runnable ft = some f ∧ Safe (s.goto w (.inside .entry .task f)) := by
  have hat : (s.pc w).fiber = some f := by rw [hpc]; exact hf
  obtain ⟨r, hr, he⟩ := k.engaged w f hat
  rw [hpc] at he
  obtain ⟨⟨hsaved, hstate⟩, hwoken, hnq⟩ := he
  constructor
  · have hend : r.ended = false := by rcases hstate with hs | hs <;> simp [Fiber.ended, hs]
    simp [State.runnable, hf, hr, hend]
  · refine k.move (w := w) (f := f) (r := r) ⟨k.fault, k.nonempty, k.nodup,
      fun w' hw => Function.update_of_ne hw .., by rw [← hr, Function.update_eq_self]; rfl, fun _ _ => rfl,
      fun _ _ => Iff.rfl, fun f' hf' => Option.some.inj (hf'.symm.trans hat), ?_, k.alone hat, ?_, ?_,
      k.quiet f r hr, ?_, ?_, ?_⟩ <;> simp only [State.pc, State.goto, Function.update_self]
    · exact fun f' hf' => (Option.some.inj hf').symm
    · exact fun _ => ⟨⟨hsaved, hstate⟩, ⟨fun _ => rfl, fun _ => hwoken⟩, hnq, fun h => by cases h⟩
    · exact fun hne => absurd rfl hne
    · intro st kd heq
      cases heq
      exact ⟨fun h => (by cases h), fun h => by cases h⟩
    · intro g hg
      refine .inl ⟨?_, hg⟩
      intro heq
      subst heq
      obtain ⟨⟨-, -, -, ⟨st, hin⟩ | ⟨-, hout⟩⟩, -⟩ := k.callback w g hg
      · cases hpc.symm.trans hin
      · exact hout hat
    · intro i hi
      refine .inl ⟨?_, hi⟩
      intro heq
      subst heq
      obtain ⟨⟨r', hr', horigin⟩, -⟩ := k.idle w i hi
      cases hwoken.symm.trans (k.quiet i r' hr' horigin).1

omit [DecidableEq φ] [DecidableEq ω] in
/-- A fiber that a worker owns is with no worker while that one is between two fibers. -/
theorem free_of_out (hout : (s.pc w).fiber = none) (honly : ∀ w', (s.pc w').fiber = some f → w' = w)
    (w' : ω) : (s.pc w').fiber ≠ some f := by
  intro h
  cases honly w' h
  cases hout.symm.trans h

/-- The callback of the node goes into the worker's `cb_fiber`, at rest since its last use. -/
theorem Safe.reuse (k : Safe s) (hout : (s.pc w).fiber = none) (hown : (s.worker w).cbFiber = some f)
    {cb : κ} (h : (s.modify f (·.reset (some cb)) fun s => s.goto w (.inside .entry .callback f)) = some t) :
    Safe t := by
  obtain ⟨⟨r, hr, horigin, hin⟩, honly⟩ := k.callback w f hown
  have hinit : r.state = .init := by
    rcases hin with ⟨st, hin⟩ | ⟨hinit, -⟩
    · rw [hin] at hout
      cases hout
    · exact hinit
  have hnone := free_of_out hout fun w' h' => honly w' (.inl h')
  obtain ⟨-, -, -, hwq, hstate⟩ := k.settled f r hr hnone
  have hwoken : s.woken f = false := by
    rw [Bool.eq_false_iff]
    intro hw
    have hs := hstate hw
    rw [hinit, horigin] at hs
    simp at hs
  have hidle : ∀ w', (s.worker w').idleFiber ≠ some f := by
    intro w' hi
    obtain ⟨⟨r₀, hr₀, ho₀⟩, -⟩ := k.idle w' f hi
    cases hr.symm.trans hr₀
    cases horigin.symm.trans ho₀
  have hreset : r.reset (some cb) = .ok { r with cb := some cb, saved := true, state := .init } :=
    if_pos (.inr (.inr hinit))
  rcases modify_cases h hr with ⟨r', ho, rfl⟩ | ⟨e, ho⟩
  · cases hreset.symm.trans ho
    have hs := k.engage hout .callback (some f) { r with cb := some cb, saved := true, state := .init }
      (fun w' hw => ⟨hnone w', fun h' => hw (honly w' (.inr h')), hidle w'⟩) ⟨rfl, .inl rfl⟩
      (fun ho => ⟨hwoken, by simp⟩) hwoken (fun hq => absurd (hwq.mpr hq) (by simp [hwoken]))
      (.inl ⟨rfl, rfl, horigin, rfl, hidle w⟩)
    rw [← hown] at hs
    exact hs
  · cases hreset.symm.trans ho

/-- The worker switches to its `idle_fiber`. -/
theorem Safe.rests (k : Safe s) (hout : (s.pc w).fiber = none) (hown : (s.worker w).idleFiber = some f)
    (hterm : (s.fiber f).any (·.state = .term) = false) : Safe (s.goto w (.inside .entry .idle f)) := by
  obtain ⟨⟨r, hr, horigin⟩, honly⟩ := k.idle w f hown
  have hnone := free_of_out hout fun w' h' => honly w' (.inl h')
  obtain ⟨hwoken, hexcept⟩ := k.quiet f r hr horigin
  obtain ⟨hsaved, hexec, hready, hwq, -⟩ := k.settled f r hr hnone
  have hne : r.state ≠ .term := by simpa [hr] using hterm
  have hstart : r.state = .init ∨ r.state = .hold := by
    cases hs : r.state <;> simp_all
  have hcbne : ∀ w', (s.worker w').cbFiber ≠ some f := by
    intro w' hcb
    obtain ⟨⟨r₀, hr₀, ho₀, -⟩, -⟩ := k.callback w' f hcb
    cases hr.symm.trans hr₀
    cases horigin.symm.trans ho₀
  have hs := k.engage hout .idle (s.worker w).cbFiber r
    (fun w' hw => ⟨hnone w', hcbne w', fun h' => hw (honly w' (.inr h'))⟩) ⟨hsaved, hstart⟩
    (k.quiet f r hr) hwoken (fun hq => absurd (hwq.mpr hq) (by simp [hwoken]))
    (.inr ⟨rfl, rfl, hcbne w, horigin, hown⟩)
  rw [← hr, Function.update_eq_self] at hs
  exact hs

theorem Safe.choose (k : Safe s) {ft : Option (FiberAndThread φ κ)} {g : φ} (hpc : s.pc w = .chosen ft)
    (h : s.choose w ft g = some t) : Safe t := by
  cases hf : ft.bind (·.fiber) with
  | some f =>
    obtain ⟨hrun, hs⟩ := k.chosen hpc hf
    simp only [State.choose, hrun] at h
    cases h
    exact hs
  | none =>
    have hout : (s.pc w).fiber = none := by rw [hpc]; exact hf
    have hrun : s.runnable ft = none := by simp [State.runnable, hf]
    simp only [State.choose, hrun] at h
    cases hcb : ft.bind (·.cb) with
    | some cb =>
      simp only [hcb] at h
      cases hown : (s.worker w).cbFiber with
      | some f =>
        simp only [hown] at h
        exact k.reuse hout hown h
      | none =>
        simp only [hown] at h
        cases hg : s.fiber g with
        | some r => simp [hg] at h
        | none =>
          simp only [hg, Option.isSome_none, Bool.false_eq_true, if_false] at h
          cases h
          obtain ⟨hwoken, hnq⟩ := k.absent g hg
          exact k.engage hout .callback (some g) _ (fun w' _ => k.nobody hg w') ⟨rfl, .inl rfl⟩
            (fun _ => ⟨hwoken, by simp⟩) hwoken hnq (.inl ⟨rfl, rfl, rfl, rfl, (k.nobody hg w).2.2⟩)
    | none =>
      simp only [hcb] at h
      cases hft : ft.isSome with
      | true =>
        rw [if_pos hft] at h
        cases h
        exact (k.wander hout .top rfl k.nonempty rfl).counts _ _
      | false =>
        rw [if_neg (by simp [hft])] at h
        cases hown : (s.worker w).idleFiber with
        | none => simp [hown] at h
        | some i =>
          simp only [hown] at h
          split at h
          · cases h
            exact k.wander hout .exited rfl k.nonempty rfl
          · rename_i hterm
            cases h
            exact (k.rests hout hown (by simpa using hterm)).counts _ _

end

end ShioSylar.Scheduler.Workers
