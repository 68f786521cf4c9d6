import ShioSylar.Scheduler.Workers

/-! What one step of the scheduler can do.

`Effect` has a constructor for each branch of `run`, of a yield and of `schedule`, with the
test that leads to it and the state after it; `step_effect` says that there are no others.
Results about every run split on it and never unfold `step`. -/
namespace ShioSylar.Scheduler.Workers

variable {ω φ κ : Type}

/-- A step inside a stage: from the first to the second, the fiber's record is rewritten. -/
inductive Rewrites : Stage → Stage → Fiber κ → Fiber κ → Prop
  | swapIn {r} (h : r.state ≠ .exec) : Rewrites .entry .entered r { r with state := .exec }
  | switchTo {r} (h : r.saved = true) : Rewrites .entered .running r { r with saved := false }
  | yieldToHold {r} (h : r.state = .exec) : Rewrites .running .leaving r r
  | yieldToReady {r} (h : r.state = .exec) : Rewrites .running .leaving r { r with state := .ready }
  | term {r} : Rewrites .running .leaving r { r with cb := none, state := .term }
  | except {r} : Rewrites .running .leaving r { r with state := .except }
  | switchFrom {r} : Rewrites .leaving .back r { r with saved := true }

theorem Rewrites.origin {st st' : Stage} {r r' : Fiber κ} (h : Rewrites st st' r r') :
    r'.origin = r.origin := by
  cases h <;> rfl

/-! ### A worker moves -/

section
variable {s t : State ω φ κ} {w w' : ω}

theorem pc_congr (h : t.worker w = s.worker w) : t.pc w = s.pc w := by
  rw [State.pc, h, State.pc]

theorem pc_update_self [DecidableEq ω] {x : Worker φ κ} (h : t.worker = Function.update s.worker w x) :
    t.pc w = x.pc := by
  rw [State.pc, h, Function.update_self]

theorem pc_update_of_ne [DecidableEq ω] {x : Worker φ κ} (h : t.worker = Function.update s.worker w x)
    (hne : w' ≠ w) : t.pc w' = s.pc w' := by
  rw [State.pc, h, Function.update_of_ne hne, State.pc]

end

theorem reset_cb {r r' : Fiber κ} {cb : Option κ} (h : r.reset cb = .ok r') : r'.cb = cb := by
  unfold Fiber.reset at h
  split at h <;> cases h
  rfl

/-- The worker that takes a step. -/
def Act.mover : Act ω φ κ → Option ω
  | .enter w _ | .work w _ | .yieldToHold w | .yieldToReady w | .finish w _ => some w
  | .create _ _ | .schedule _ => none

/-- The step takes a fiber from the stage to the record: out of the code of the fiber, what the
fiber calls, else the next step of the worker. -/
inductive Drives (a : Act ω φ κ) (w : ω) (r : Fiber κ) : Stage → Prop
  | ready (ha : a = .yieldToReady w) (hr : r.state = .ready) : Drives a w r .running
  | other (ha : a = .yieldToHold w ∨ ∃ threw, a = .finish w threw) (hr : r.state ≠ .ready) :
      Drives a w r .running
  | work {st g} (ha : a = .work w g) (hst : st ≠ .running) : Drives a w r st

theorem Drives.mover {a : Act ω φ κ} {w : ω} {r : Fiber κ} {st : Stage} (h : Drives a w r st) :
    a.mover = some w := by
  cases h with
  | ready ha => rw [ha]; rfl
  | other ha =>
    obtain rfl | ⟨threw, rfl⟩ := ha
    · rfl
    · rfl
  | work ha => rw [ha]; rfl

section
variable [DecidableEq ω] [DecidableEq φ]

/-- The record of a fiber is replaced. -/
def State.put (s : State ω φ κ) (f : φ) (r : Fiber κ) : State ω φ κ :=
  { s with fiber := Function.update s.fiber f (some r) }

/-- A worker is done with the fiber: a callback's that has not ended is given up. -/
def State.leaves (s : State ω φ κ) (w : ω) (k : Kind) : State ω φ κ :=
  { s with
    worker := Function.update s.worker w
      { s.worker w with pc := .top, cbFiber := if k = .callback then none else (s.worker w).cbFiber } }

/-- Why a step fails. -/
inductive Fails (thread : ω → Int) (s : State ω φ κ) : Fault → Prop
  | scan {w} (hpc : s.pc w = .top) (h : fetch (thread w) s.isExec s.fibers = none) : Fails thread s .assertion
  | reset {w ft h r cb e} (hpc : s.pc w = .chosen (some ft)) (hown : (s.worker w).cbFiber = some h)
      (hr : s.fiber h = some r) (he : r.reset cb = .error e) : Fails thread s e
  | swapIn {w k f r} (hpc : s.pc w = .inside .entry k f) (hr : s.fiber f = some r)
      (he : r.state = .exec) : Fails thread s .assertion
  | switchTo {w k f r} (hpc : s.pc w = .inside .entered k f) (hr : s.fiber f = some r)
      (he : r.saved = false) : Fails thread s .unsaved
  | yield {w k f r} (hpc : s.pc w = .inside .running k f) (hr : s.fiber f = some r)
      (he : r.state ≠ .exec) : Fails thread s .assertion

/-- The branches of a step. -/
inductive Effect (thread : ω → Int) (s : State ω φ κ) : Act ω φ κ → State ω φ κ → Prop
  | fails {a e} (h : Fails thread s e) : Effect thread s a { s with fault := some e }
  | enters {w i} (hpc : s.pc w = .out) (hi : s.fiber i = none) :
      Effect thread s (.enter w i) { s.put i { cb := none, origin := .idle } with
        worker := Function.update s.worker w { pc := .top, idleFiber := some i } }
  | creates {f cb} (hf : s.fiber f = none) :
      Effect thread s (.create f cb) (s.put f { cb := some cb, origin := .user })
  | schedules {nodes} (hok : ∀ ft ∈ nodes, ft.fiber.all s.shared ∧ (ft.fiber.isNone ∨ ft.cb.isNone)) :
      Effect thread s (.schedule nodes) (s.schedule nodes)
  | scans {w g x} (hpc : s.pc w = .top) (hx : fetch (thread w) s.isExec s.fibers = some x) :
      Effect thread s (.work w g) { s.goto w (.chosen x.task) with
        fibers := x.fibers
        activeThreadCount := s.activeThreadCount + (if x.task.isSome then 1 else 0) }
  | runs {w g ft f} (hpc : s.pc w = .chosen (some ft)) (hrun : s.runnable (some ft) = some f) :
      Effect thread s (.work w g) (s.goto w (.inside .entry .task f))
  | resets {w g ft cb h r r'} (hpc : s.pc w = .chosen (some ft)) (hrun : s.runnable (some ft) = none)
      (hcb : ft.cb = some cb) (hown : (s.worker w).cbFiber = some h) (hr : s.fiber h = some r)
      (hreset : r.reset (some cb) = .ok r') :
      Effect thread s (.work w g) ((s.put h r').goto w (.inside .entry .callback h))
  | makes {w g ft cb} (hpc : s.pc w = .chosen (some ft)) (hrun : s.runnable (some ft) = none)
      (hcb : ft.cb = some cb) (hown : (s.worker w).cbFiber = none) (hg : s.fiber g = none) :
      Effect thread s (.work w g) { s.put g { cb := some cb, origin := .callback } with
        worker := Function.update s.worker w
          { s.worker w with pc := .inside .entry .callback g, cbFiber := some g } }
  | discards {w g ft} (hpc : s.pc w = .chosen (some ft)) (hrun : s.runnable (some ft) = none)
      (hcb : ft.cb = none) :
      Effect thread s (.work w g) { s.goto w .top with activeThreadCount := s.activeThreadCount - 1 }
  | exits {w g i} (hpc : s.pc w = .chosen none) (hown : (s.worker w).idleFiber = some i)
      (hterm : (s.fiber i).any (·.state = .term) = true) : Effect thread s (.work w g) (s.goto w .exited)
  | idles {w g i} (hpc : s.pc w = .chosen none) (hown : (s.worker w).idleFiber = some i)
      (hterm : (s.fiber i).any (·.state = .term) = false) :
      Effect thread s (.work w g)
        { s.goto w (.inside .entry .idle i) with idleThreadCount := s.idleThreadCount + 1 }
  | rewrites {a w st st' k f r r'} (hpc : s.pc w = .inside st k f) (hr : s.fiber f = some r)
      (h : Rewrites st st' r r') (hthrew : st = .running → r'.state = .except → s.shared f = true)
      (hact : Drives a w r' st) :
      Effect thread s a { (s.put f r').goto w (.inside st' k f) with
        woken := if st = .entry then Function.update s.woken f false else s.woken }
  | backs {w g k f} (hpc : s.pc w = .inside .back k f) :
      Effect thread s (.work w g) { s.goto w (.inside .check k f) with
        activeThreadCount := s.activeThreadCount - (if k = .idle then 0 else 1)
        idleThreadCount := s.idleThreadCount - (if k = .idle then 1 else 0) }
  | readies {w g k f r} (hpc : s.pc w = .inside .check k f) (hr : s.fiber f = some r)
      (hready : r.state = .ready) (hk : k ≠ .idle) :
      Effect thread s (.work w g) ((s.schedule [{ fiber := some f }]).leaves w k)
  | ends {w g k f r} (hpc : s.pc w = .inside .check k f) (hr : s.fiber f = some r)
      (hend : r.ended = true) (hk : k ≠ .callback) : Effect thread s (.work w g) (s.goto w .top)
  | empties {w g f r} (hpc : s.pc w = .inside .check .callback f) (hr : s.fiber f = some r)
      (hend : r.ended = true) :
      Effect thread s (.work w g)
        ((s.put f { r with cb := none, saved := true, state := .init }).goto w .top)
  | checks {w g k f r} (hpc : s.pc w = .inside .check k f) (hr : s.fiber f = some r)
      (hready : r.state = .ready → k = .idle) (hend : r.ended = false) :
      Effect thread s (.work w g) (s.goto w (.inside .hold k f))
  | holds {w g k f r} (hpc : s.pc w = .inside .hold k f) (hr : s.fiber f = some r) :
      Effect thread s (.work w g) ((s.put f { r with state := .hold }).leaves w k)

variable {thread : ω → Int} {s t : State ω φ κ} {w : ω} {f g : φ}

omit [DecidableEq ω] in
/-- What an operation on a fiber comes to. -/
theorem modify_effect {op : Fiber κ → Except Fault (Fiber κ)} {next : State ω φ κ → State ω φ κ}
    (h : s.modify f op next = some t) : ∃ r, s.fiber f = some r ∧
      ((∃ r', op r = .ok r' ∧ t = next (s.put f r')) ∨
        ∃ e, op r = .error e ∧ t = { s with fault := some e }) := by
  unfold State.modify at h
  split at h
  · cases h
  · rename_i r hr
    split at h
    · rename_i r' ho
      exact ⟨r, hr, .inl ⟨r', ho, (Option.some.inj h).symm⟩⟩
    · rename_i e ho
      exact ⟨r, hr, .inr ⟨e, ho, (Option.some.inj h).symm⟩⟩

omit [DecidableEq φ] in
theorem leaves_eq (s : State ω φ κ) (w : ω) (k : Kind) :
    (if k = .callback then
      { s with worker := Function.update s.worker w { s.worker w with pc := .top, cbFiber := none } }
    else s.goto w .top) = s.leaves w k := by
  unfold State.leaves State.goto
  split <;> rfl

theorem choose_effect {ft : Option (FiberAndThread φ κ)} (hpc : s.pc w = .chosen ft)
    (h : s.choose w ft g = some t) : Effect thread s (.work w g) t := by
  unfold State.choose at h
  split at h
  · rename_i f hrun
    cases h
    cases ft with
    | none => cases hrun
    | some ft => exact .runs hpc hrun
  · rename_i cb hrun hcb
    cases ft with
    | none => cases hcb
    | some ft =>
      split at h
      · rename_i x hown
        obtain ⟨r, hr, ⟨r', ho, rfl⟩ | ⟨e, ho, rfl⟩⟩ := modify_effect h
        · exact .resets hpc hrun hcb hown hr ho
        · exact .fails (.reset hpc hown hr ho)
      · rename_i hown
        obtain ⟨hg, h⟩ := Option.ite_none_left_eq_some.mp h
        cases h
        exact .makes hpc hrun hcb hown (by simpa using hg)
  · rename_i hrun hcb
    cases ft with
    | some ft =>
      cases h
      exact .discards hpc hrun hcb
    | none =>
      rw [if_neg (by simp)] at h
      split at h
      · cases h
      · rename_i i hown
        split at h
        · rename_i hterm
          cases h
          exact .exits hpc hown hterm
        · rename_i hterm
          cases h
          exact .idles hpc hown (by simpa using hterm)

theorem settle_effect {k : Kind} (hpc : s.pc w = .inside .check k f) (h : s.settle w k f = some t) :
    Effect thread s (.work w g) t := by
  unfold State.settle at h
  split at h
  · cases h
  · rename_i r hr
    split at h
    · rename_i hready
      cases h
      rw [leaves_eq]
      exact .readies hpc hr hready.1 hready.2
    · rename_i hready
      split at h
      · rename_i hend
        split at h
        · rename_i hk
          subst hk
          have hreset : r.state = .term ∨ r.state = .except ∨ r.state = .init :=
            (by simpa [Fiber.ended] using hend : r.state = .term ∨ r.state = .except).imp_right .inl
          obtain ⟨r', hr', ⟨x, ho, rfl⟩ | ⟨e, ho, -⟩⟩ := modify_effect h
          · cases hr.symm.trans hr'
            rw [Fiber.reset, if_pos hreset] at ho
            cases ho
            exact .empties hpc hr hend
          · cases hr.symm.trans hr'
            rw [Fiber.reset, if_pos hreset] at ho
            cases ho
        · rename_i hk
          cases h
          exact .ends hpc hr hend hk
      · rename_i hend
        cases h
        exact .checks hpc hr (fun hs => by_contra fun hk => hready ⟨hs, hk⟩) (by simpa using hend)

theorem work_effect (h : s.work thread w g = some t) : Effect thread s (.work w g) t := by
  unfold State.work at h
  split at h
  · cases h
  · cases h
  · rename_i hpc
    split at h
    · rename_i hx
      cases h
      exact .fails (.scan hpc hx)
    · rename_i x hx
      cases h
      exact .scans hpc hx
  · rename_i ft hpc
    exact choose_effect hpc h
  · rename_i k f hpc
    obtain ⟨r, hr, ⟨r', ho, rfl⟩ | ⟨e, ho, rfl⟩⟩ := modify_effect h
    · simp only [Fiber.swapIn] at ho
      split at ho
      · cases ho
      · rename_i hne
        cases ho
        exact .rewrites hpc hr (.swapIn hne) (fun hst => nomatch hst) (.work rfl nofun)
    · simp only [Fiber.swapIn] at ho
      split at ho
      · rename_i hexec
        cases ho
        exact .fails (.swapIn hpc hr hexec)
      · cases ho
  · rename_i k f hpc
    obtain ⟨r, hr, ⟨r', ho, rfl⟩ | ⟨e, ho, rfl⟩⟩ := modify_effect h
    · simp only [Fiber.switchTo] at ho
      split at ho
      · rename_i hsaved
        cases ho
        exact .rewrites hpc hr (.switchTo hsaved) (fun hst => nomatch hst) (.work rfl nofun)
      · cases ho
    · simp only [Fiber.switchTo] at ho
      split at ho
      · cases ho
      · rename_i hsaved
        cases ho
        exact .fails (.switchTo hpc hr (by simpa using hsaved))
  · cases h
  · rename_i k f hpc
    obtain ⟨r, hr, ⟨r', ho, rfl⟩ | ⟨e, ho, rfl⟩⟩ := modify_effect h
    · cases ho
      exact .rewrites hpc hr .switchFrom (fun hst => nomatch hst) (.work rfl nofun)
    · cases ho
  · rename_i k f hpc
    cases h
    have hback : Effect thread s (.work w g) _ := .backs hpc
    split <;> rename_i hk
    · simp only [if_pos hk, Int.sub_zero] at hback
      exact hback
    · simp only [if_neg hk, Int.sub_zero] at hback
      exact hback
  · rename_i k f hpc
    exact settle_effect hpc h
  · rename_i k f hpc
    obtain ⟨r, hr, ⟨r', ho, rfl⟩ | ⟨e, ho, rfl⟩⟩ := modify_effect h
    · cases ho
      rw [leaves_eq]
      exact .holds hpc hr
    · cases ho

/-- A yield or the end of the fiber that a worker runs. -/
theorem leave_effect {a : Act ω φ κ} {op : Fiber κ → Except Fault (Fiber κ)}
    (hop : ∀ r r', op r = .ok r' → Rewrites .running .leaving r r' ∧ Drives a w r' .running)
    (herr : ∀ r e, op r = .error e → r.state ≠ .exec ∧ e = .assertion)
    (hthrew : ∀ k f r r', s.pc w = .inside .running k f → op r = .ok r' → r'.state = .except →
      s.shared f = true) (h : s.leave w op = some t) : Effect thread s a t := by
  unfold State.leave at h
  split at h
  · rename_i k f hpc
    obtain ⟨r, hr, ⟨r', ho, rfl⟩ | ⟨e, ho, rfl⟩⟩ := modify_effect h
    · exact .rewrites hpc hr (hop r r' ho).1 (fun _ => hthrew k f r r' hpc ho) (hop r r' ho).2
    · obtain ⟨hne, rfl⟩ := herr r e ho
      exact .fails (.yield hpc hr hne)
  · cases h

theorem step_effect {a : Act ω φ κ} (h : step thread s a = some t) : Effect thread s a t := by
  cases a with
  | enter w i =>
    simp only [step] at h
    split at h
    · rename_i hfault hpc hi
      cases h
      exact .enters hpc hi
    · cases h
  | create f cb =>
    simp only [step] at h
    split at h
    · rename_i hfault hf
      cases h
      exact .creates hf
    · cases h
  | schedule nodes =>
    obtain ⟨⟨-, hok⟩, h⟩ := Option.ite_none_right_eq_some.mp h
    cases h
    exact .schedules hok
  | work w g => exact work_effect (Option.ite_none_right_eq_some.mp h).2
  | yieldToHold w =>
    refine leave_effect (fun r r' ho => ?_) (fun r e ho => ?_) (fun k f r r' _ ho hs => ?_)
      (Option.ite_none_right_eq_some.mp h).2 <;> simp only [Fiber.yieldToHold] at ho <;> split at ho <;>
      cases ho
    · rename_i hexec
      exact ⟨.yieldToHold hexec, .other (.inl rfl) (by simp [hexec])⟩
    · rename_i hne
      exact ⟨hne, rfl⟩
    · rename_i hexec
      cases hexec.symm.trans hs
  | yieldToReady w =>
    refine leave_effect (fun r r' ho => ?_) (fun r e ho => ?_) (fun k f r r' _ ho hs => ?_)
      (Option.ite_none_right_eq_some.mp h).2 <;> simp only [Fiber.yieldToReady] at ho <;> split at ho <;>
      cases ho
    · rename_i hexec
      exact ⟨.yieldToReady hexec, .ready rfl rfl⟩
    · rename_i hne
      exact ⟨hne, rfl⟩
    · cases hs
  | finish w threw =>
    obtain ⟨⟨-, hthrew⟩, h⟩ := Option.ite_none_right_eq_some.mp h
    refine leave_effect (fun r r' ho => ?_) (fun r e ho => ?_) (fun k f r r' hpc ho hs => ?_) h
    · cases threw <;> cases ho
      · exact ⟨.term, .other (.inr ⟨_, rfl⟩) nofun⟩
      · exact ⟨.except, .other (.inr ⟨_, rfl⟩) nofun⟩
    · cases ho
    · cases threw with
      | false =>
        cases ho
        cases hs
      | true =>
        have hall := hthrew rfl
        rw [hpc] at hall
        exact hall

end

end ShioSylar.Scheduler.Workers
