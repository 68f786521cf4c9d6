import ShioSylar.Lib.Ledger
import ShioSylar.Scheduler.Alone
import ShioSylar.Scheduler.Counts

/-! Every task is run once.

Beside the scheduler an account is kept of the nodes of `m_fibers`: each has a number, and
under it is entered who took it, who switched to its fiber or callback, and who passed it
over as ended. `conservation_reachable` says what the account and the scheduler have to do with
each other in every run whose scans take free fibers. A fiber that is queued while it
runs and yields as READY is lost (`ready_lost`). -/
namespace ShioSylar.Scheduler.Workers
open Lib

variable {ω φ κ : Type}

/-- The scheduler and the account of its tasks. -/
structure Tracked (ω φ κ : Type) where
  state : State ω φ κ
  ledger : Ledger ω (FiberAndThread φ κ)
  /-- The tasks that yielded as READY on each worker, the last one first. -/
  readied : ω → List φ
  /-- The tasks that each worker pushed back. -/
  requeued : ω → List φ

namespace Tracked

def start : Tracked ω φ κ := ⟨Workers.start, {}, fun _ => [], fun _ => []⟩

variable [DecidableEq ω] [DecidableEq φ]

/-- What is entered at a step. -/
def book (thread : ω → Int) (s : Tracked ω φ κ) : Act ω φ κ → Tracked ω φ κ
  | .schedule nodes => { s with ledger := s.ledger.put (nodes.filter (·.nonempty)) }
  | .work w _ =>
    match s.state.pc w with
    | .top => { s with ledger := s.ledger.take w fun it => Takeable (thread w) s.state.isExec it }
    | .chosen (some ft) =>
      if s.state.runnable (some ft) = none ∧ ft.cb.isNone then { s with ledger := s.ledger.drop w } else s
    | .inside .entered k _ => if k = .idle then s else { s with ledger := s.ledger.use w }
    | .inside .check k f =>
      if (s.state.fiber f).any (·.state = .ready) ∧ k ≠ .idle then { s with
        ledger := s.ledger.put [{ fiber := some f }]
        requeued := Function.update s.requeued w (f :: s.requeued w) }
      else s
    | _ => s
  | .yieldToReady w =>
    match s.state.pc w with
    | .inside .running k f =>
      if k = .idle then s else { s with readied := Function.update s.readied w (f :: s.readied w) }
    | _ => s
  | _ => s

/-- A step of the scheduler, entered unless it failed. -/
def step (thread : ω → Int) (s : Tracked ω φ κ) (a : Act ω φ κ) : Option (Tracked ω φ κ) :=
  (Workers.step thread s.state a).map fun t =>
    { (if t.fault.isSome then s else s.book thread a) with state := t }

end Tracked

/-- What a worker at this point has in its hand. -/
def Carries (s : State ω φ κ) : Pc φ κ → Option (FiberAndThread φ κ × Nat) → Prop
  | .chosen ft, h => h.map (·.1) = ft
  | .inside .entry .task f, h | .inside .entered .task f, h => ∃ p, h = some p ∧ p.1.fiber = some f
  | .inside .entry .callback f, h | .inside .entered .callback f, h =>
    ∃ p cb, h = some p ∧ p.1.cb = some cb ∧ (s.fiber f).bind (·.cb) = some cb
  | _, h => h = none

/-- The task that a worker at this point has come back from and will find READY. -/
def Returns (s : State ω φ κ) : Pc φ κ → List φ
  | .inside st k f =>
    if (s.fiber f).any (·.state = .ready) ∧ k ≠ .idle ∧ (st = .leaving ∨ st = .back ∨ st = .check) then [f]
    else []
  | _ => []

structure Accounted (s : Tracked ω φ κ) : Prop where
  kept : s.ledger.Kept
  nonempty : ∀ ft ∈ s.ledger.items, ft.nonempty = true
  queue : s.state.fibers = s.ledger.contents
  carries : ∀ w, Carries s.state (s.state.pc w) (s.ledger.hand w)
  readied : ∀ w, s.readied w = Returns s.state (s.state.pc w) ++ s.requeued w

theorem start_accounted : Accounted (Tracked.start : Tracked ω φ κ) :=
  ⟨Ledger.kept_empty, fun _ h => (nomatch h), rfl, fun _ => rfl, fun _ => rfl⟩

section
variable {s : Tracked ω φ κ} {x t : State ω φ κ} {w : ω} {f : φ}

/-! ### A worker that does not move -/

variable [DecidableEq ω] [DecidableEq φ] {thread : ω → Int} {a : Act ω φ κ}

/-- A step leaves the other workers and their fibers as they are. -/
theorem Sole.elsewhere (k : Sole x) (o : Owned x) (h : Effect thread x a t) (hw : a.mover ≠ some w) :
    t.worker w = x.worker w ∧ ∀ st kd f, x.pc w = .inside st kd f → t.fiber f = x.fiber f := by
  have hne : ∀ {w'}, a.mover = some w' → w ≠ w' := by
    rintro w' ha rfl
    exact hw ha
  -- the record that is replaced is new, or the moving worker has to do with it
  have hput : ∀ {f r}, (x.fiber f = none ∨ ∃ w', w ≠ w' ∧ (x.Engages w' f ∨ (x.worker w').cbFiber = some f)) →
      ∀ st kd f', x.pc w = .inside st kd f' → Function.update x.fiber f r f' = x.fiber f' := by
    intro f r hf st kd f' hpc
    have hff : f' ≠ f := by
      rintro rfl
      obtain hnone | ⟨w', hww, hat | hcb⟩ := hf
      · exact (o.nobody hnone w).1 (by rw [hpc]; rfl)
      · exact hww (k.unique w w' f' (engages_inside hpc) hat)
      · exact hww (o.cb_engaged hcb (engages_inside hpc)).1
    rw [Function.update_of_ne hff]
  cases h with
  | fails h => exact ⟨rfl, fun _ _ _ _ => rfl⟩
  | enters hpc hi => exact ⟨Function.update_of_ne (hne rfl) .., hput (.inl hi)⟩
  | creates hf => exact ⟨rfl, hput (.inl hf)⟩
  | schedules hok => exact ⟨rfl, fun _ _ _ _ => rfl⟩
  | scans hpc hx => exact ⟨Function.update_of_ne (hne rfl) .., fun _ _ _ _ => rfl⟩
  | runs hpc hrun => exact ⟨Function.update_of_ne (hne rfl) .., fun _ _ _ _ => rfl⟩
  | resets hpc hrun hcb hown hr hreset =>
    exact ⟨Function.update_of_ne (hne rfl) .., hput (.inr ⟨_, hne rfl, .inr hown⟩)⟩
  | makes hpc hrun hcb hown hg => exact ⟨Function.update_of_ne (hne rfl) .., hput (.inl hg)⟩
  | discards hpc hrun hcb => exact ⟨Function.update_of_ne (hne rfl) .., fun _ _ _ _ => rfl⟩
  | exits hpc hown hterm => exact ⟨Function.update_of_ne (hne rfl) .., fun _ _ _ _ => rfl⟩
  | idles hpc hown hterm => exact ⟨Function.update_of_ne (hne rfl) .., fun _ _ _ _ => rfl⟩
  | rewrites hpc hr h hthrew hact =>
    exact ⟨Function.update_of_ne (hne hact.mover) .., hput (.inr ⟨_, hne hact.mover, .inl (engages_inside hpc)⟩)⟩
  | backs hpc => exact ⟨Function.update_of_ne (hne rfl) .., fun _ _ _ _ => rfl⟩
  | readies hpc hr hready hk => exact ⟨Function.update_of_ne (hne rfl) .., fun _ _ _ _ => rfl⟩
  | ends hpc hr hend hk => exact ⟨Function.update_of_ne (hne rfl) .., fun _ _ _ _ => rfl⟩
  | empties hpc hr hend =>
    exact ⟨Function.update_of_ne (hne rfl) .., hput (.inr ⟨_, hne rfl, .inl (engages_inside hpc)⟩)⟩
  | checks hpc hr hready hend => exact ⟨Function.update_of_ne (hne rfl) .., fun _ _ _ _ => rfl⟩
  | holds hpc hr =>
    exact ⟨Function.update_of_ne (hne rfl) .., hput (.inr ⟨_, hne rfl, .inl (engages_inside hpc)⟩)⟩

omit [DecidableEq ω] [DecidableEq φ] in
theorem Carries.congr {pc : Pc φ κ} {h : Option (FiberAndThread φ κ × Nat)} (k : Carries x pc h)
    (hfiber : ∀ st kd f, pc = .inside st kd f → t.fiber f = x.fiber f) : Carries t pc h := by
  rcases pc with _ | _ | ft | ⟨st, kd, f⟩ | _
  · exact k
  · exact k
  · exact k
  · have hf := hfiber st kd f rfl
    cases st <;> cases kd <;> first | exact k | (simp only [Carries, hf]; exact k)
  · exact k

omit [DecidableEq ω] [DecidableEq φ] in
theorem returns_congr {pc : Pc φ κ} (hfiber : ∀ st kd f, pc = .inside st kd f → t.fiber f = x.fiber f) :
    Returns t pc = Returns x pc := by
  unfold Returns
  split
  · rename_i st kd f
    rw [hfiber st kd f rfl]
  · rfl

omit [DecidableEq φ] in
/-- Nothing is entered for another worker. -/
theorem book_elsewhere (hw : a.mover ≠ some w) : (s.book thread a).ledger.hand w = s.ledger.hand w ∧
    (s.book thread a).readied w = s.readied w ∧ (s.book thread a).requeued w = s.requeued w := by
  have hne : ∀ {w'}, a.mover = some w' → w ≠ w' := by
    rintro w' ha rfl
    exact hw ha
  unfold Tracked.book
  split
  · exact ⟨rfl, rfl, rfl⟩
  · have hww := hne rfl
    split
    · exact ⟨Ledger.take_hand_of_ne hww, rfl, rfl⟩
    · split
      · exact ⟨Ledger.drop_hand_of_ne hww, rfl, rfl⟩
      · exact ⟨rfl, rfl, rfl⟩
    · split
      · exact ⟨rfl, rfl, rfl⟩
      · exact ⟨Ledger.use_hand_of_ne hww, rfl, rfl⟩
    · split
      · exact ⟨rfl, rfl, Function.update_of_ne hww ..⟩
      · exact ⟨rfl, rfl, rfl⟩
    · exact ⟨rfl, rfl, rfl⟩
  · have hww := hne rfl
    split
    · split
      · exact ⟨rfl, rfl, rfl⟩
      · exact ⟨rfl, Function.update_of_ne hww .., rfl⟩
    · exact ⟨rfl, rfl, rfl⟩
  · exact ⟨rfl, rfl, rfl⟩

/-! ### One step -/

omit [DecidableEq ω] [DecidableEq φ] in
theorem Accounted.put_nonempty (k : Accounted s) {nodes : List (FiberAndThread φ κ)}
    (h : ∀ ft ∈ nodes, ft.nonempty = true) : ∀ ft ∈ (s.ledger.put nodes).items, ft.nonempty = true := by
  intro ft hft
  exact (List.mem_append.mp hft).elim (k.nonempty ft) (h ft)

/-- What is left to say of a step: the queue, and the worker that takes it. -/
theorem Accounted.settle (k : Accounted s) (u : Sole s.state) (o : Owned s.state)
    (h : Effect thread s.state a t) {l : Ledger ω (FiberAndThread φ κ)} {rd rq : ω → List φ}
    (hb : s.book thread a = ⟨s.state, l, rd, rq⟩) (hkept : l.Kept)
    (hitems : ∀ ft ∈ l.items, ft.nonempty = true) (hqueue : t.fibers = l.contents)
    (hat : ∀ w, a.mover = some w → Carries t (t.pc w) (l.hand w) ∧ rd w = Returns t (t.pc w) ++ rq w) :
    Accounted { s.book thread a with state := t } := by
  have hboth : ∀ w, Carries t (t.pc w) (l.hand w) ∧ rd w = Returns t (t.pc w) ++ rq w := by
    intro w
    by_cases hw : a.mover = some w
    · exact hat w hw
    · obtain ⟨hworker, hfiber⟩ := u.elsewhere o h hw
      have hpc : t.pc w = s.state.pc w := pc_congr hworker
      obtain ⟨hhand, hready, hre⟩ := @book_elsewhere _ _ _ s w _ thread _ hw
      rw [hb] at hhand hready hre
      rw [hpc, show l.hand w = _ from hhand, show rd w = _ from hready, show rq w = _ from hre,
        returns_congr hfiber]
      exact ⟨(k.carries w).congr hfiber, k.readied w⟩
  rw [hb]
  exact ⟨hkept, hitems, hqueue, fun w => (hboth w).1, fun w => (hboth w).2⟩

/-- A worker moves. -/
theorem Accounted.move (k : Accounted s) (u : Sole s.state) (o : Owned s.state)
    (h : Effect thread s.state a t) (ha : a.mover = some w) {y : Worker φ κ}
    (hw : t.worker = Function.update s.state.worker w y) {l : Ledger ω (FiberAndThread φ κ)}
    {rd rq : ω → List φ} (hb : s.book thread a = ⟨s.state, l, rd, rq⟩) (hkept : l.Kept)
    (hitems : ∀ ft ∈ l.items, ft.nonempty = true) (hqueue : t.fibers = l.contents) (hcar : Carries t y.pc (l.hand w))
    (hread : rd w = Returns t y.pc ++ rq w) : Accounted { s.book thread a with state := t } := by
  refine k.settle u o h hb hkept hitems hqueue fun w' hw' => ?_
  cases ha.symm.trans hw'
  rw [pc_update_self hw]
  exact ⟨hcar, hread⟩

/-- A worker moves, and nothing is entered. -/
theorem Accounted.stay (k : Accounted s) (u : Sole s.state) (o : Owned s.state) {pc : Pc φ κ}
    (hpc : s.state.pc w = pc) (h : Effect thread s.state a t) (ha : a.mover = some w) {y : Worker φ κ}
    (hw : t.worker = Function.update s.state.worker w y) (hqueue : t.fibers = s.state.fibers)
    (hb : s.book thread a = s)
    (hcar : Carries s.state pc (s.ledger.hand w) → Carries t y.pc (s.ledger.hand w))
    (hreturns : Returns t y.pc = Returns s.state pc) : Accounted { s.book thread a with state := t } := by
  subst hpc
  refine k.move u o h ha hw hb k.kept k.nonempty (hqueue.trans k.queue) (hcar (k.carries w)) ?_
  rw [hreturns]
  exact k.readied w

/-- A fiber yields or ends. -/
theorem Accounted.leaves (k : Accounted s) (u : Sole s.state) (o : Owned s.state) {kd : Kind}
    {r' : Fiber κ} (hpc : s.state.pc w = .inside .running kd f) (hact : Drives a w r' .running)
    {b : φ → Bool}
    (e : Effect thread s.state a { (s.state.put f r').goto w (.inside .leaving kd f) with woken := b }) :
    Accounted { s.book thread a with
      state := { (s.state.put f r').goto w (.inside .leaving kd f) with woken := b } } := by
  have hread : s.readied w = s.requeued w := by
    have hread := k.readied w
    rw [hpc] at hread
    simpa [Returns] using hread
  have hnone : s.ledger.hand w = none := by
    have hcar := k.carries w
    rw [hpc] at hcar
    cases kd <;> exact hcar
  cases hact with
  | ready ha hready =>
    subst ha
    by_cases hk : kd = .idle
    · subst hk
      exact k.stay u o hpc e rfl rfl rfl (by simp [Tracked.book, hpc]) id (by simp [Returns])
    · have hb : s.book thread (.yieldToReady w) = ⟨s.state, s.ledger,
          Function.update s.readied w (f :: s.readied w), s.requeued⟩ := by
        simp [Tracked.book, hpc, hk]
      refine k.move u o e rfl rfl hb k.kept k.nonempty k.queue ?_ ?_
      · cases kd <;> exact hnone
      · simp [Returns, State.goto, State.put, hready, hk, hread]
  | other ha hne =>
    have hb : s.book thread a = s := by
      obtain rfl | ⟨threw, rfl⟩ := ha <;> rfl
    have hmover : a.mover = some w := by
      obtain rfl | ⟨threw, rfl⟩ := ha <;> rfl
    refine k.stay u o hpc e hmover rfl rfl hb ?_ ?_
    · cases kd <;> exact id
    · simp [Returns, State.goto, State.put, hne]
  | work ha hst => exact absurd rfl hst

/-- A worker takes its fiber through a stage. -/
theorem Accounted.rewrites (k : Accounted s) (u : Sole s.state) (o : Owned s.state) {st st' : Stage}
    {kd : Kind} {r r' : Fiber κ} (hpc : s.state.pc w = .inside st kd f) (hr : s.state.fiber f = some r)
    (h : Rewrites st st' r r') (hact : Drives a w r' st)
    (e : Effect thread s.state a { (s.state.put f r').goto w (.inside st' kd f) with
      woken := if st = .entry then Function.update s.state.woken f false else s.state.woken }) :
    Accounted { s.book thread a with state := { (s.state.put f r').goto w (.inside st' kd f) with
      woken := if st = .entry then Function.update s.state.woken f false else s.state.woken } } := by
  have hat : Carries s.state (.inside st kd f) (s.ledger.hand w) ∧
      s.readied w = Returns s.state (.inside st kd f) ++ s.requeued w := hpc ▸ ⟨k.carries w, k.readied w⟩
  cases h with
  | swapIn hne =>
    cases hact with
    | work ha hst =>
      subst ha
      refine k.stay u o hpc e rfl rfl rfl (by simp only [Tracked.book, hpc]) ?_ (by simp [Returns])
      cases kd with
      | task => exact id
      | callback => simp [Carries, State.goto, State.put, hr]
      | idle => exact id
  | switchTo hsaved =>
    cases hact with
    | @work _ g ha hst =>
      subst ha
      by_cases hk : kd = .idle
      · subst hk
        refine k.stay u o hpc e rfl rfl rfl (by simp [Tracked.book, hpc]) id (by simp [Returns])
      · obtain ⟨p, hp⟩ : ∃ p, s.ledger.hand w = some p := by
          cases kd with
          | task =>
            obtain ⟨p, hp, -⟩ := hat.1
            exact ⟨p, hp⟩
          | callback =>
            obtain ⟨p, cb, hp, -⟩ := hat.1
            exact ⟨p, hp⟩
          | idle => exact absurd rfl hk
        have hb : s.book thread (.work w g) = ⟨s.state, s.ledger.use w, s.readied, s.requeued⟩ := by
          simp [Tracked.book, hpc, hk]
        refine k.move u o e rfl rfl hb (k.kept.use hp) (by rw [Ledger.use_items]; exact k.nonempty) ?_ ?_ ?_
        · rw [Ledger.use_contents]
          exact k.queue
        · cases kd <;> exact Ledger.use_hand_self
        · simpa [Returns] using hat.2
  | switchFrom =>
    cases hact with
    | work ha hst =>
      subst ha
      refine k.stay u o hpc e rfl rfl rfl (by simp only [Tracked.book, hpc]) ?_ ?_
      · cases kd <;> exact id
      · simp [Returns, State.goto, State.put, hr]
  | yieldToHold hexec => exact k.leaves u o hpc hact e
  | yieldToReady hexec => exact k.leaves u o hpc hact e
  | term => exact k.leaves u o hpc hact e
  | except => exact k.leaves u o hpc hact e

/-- A step keeps the account. -/
theorem Accounted.step (k : Accounted s) (u : Sole s.state) (o : Owned s.state)
    (h : Effect thread s.state a t) : Accounted { s.book thread a with state := t } := by
  have hat : ∀ {w pc}, s.state.pc w = pc →
      Carries s.state pc (s.ledger.hand w) ∧ s.readied w = Returns s.state pc ++ s.requeued w := by
    rintro w pc rfl
    exact ⟨k.carries w, k.readied w⟩
  have e := h
  cases h with
  | fails h => exact absurd h (u.not_fails o)
  | enters hpc hi => exact k.stay u o hpc e rfl rfl rfl rfl id rfl
  | creates hf => exact k.settle u o e rfl k.kept k.nonempty k.queue nofun
  | @schedules nodes hok =>
    refine k.settle u o e rfl (k.kept.put _) (k.put_nonempty fun ft hft => (List.mem_filter.mp hft).2) ?_ nofun
    rw [Ledger.put_contents, ← k.queue]
    exact scheduleAll_eq ..
  | @scans w g y hpc hx =>
    obtain ⟨htask, hrest⟩ := fetch_find (fun it hit => (o.queue it hit).1) hx
    have hnone : s.ledger.hand w = none := (hat hpc).1
    refine k.move u o e rfl rfl (by simp only [Tracked.book, hpc]; rfl) (k.kept.take hnone)
      (by rw [Ledger.take_items]; exact k.nonempty) ?_ ?_ (hat hpc).2
    · rw [Ledger.take_contents, ← k.queue]
      exact hrest
    · show Option.map _ _ = _
      rw [Ledger.take_hand_self hnone, ← k.queue, htask]
  | @runs w g ft f hpc hrun =>
    refine k.stay u o hpc e rfl rfl rfl (by simp [Tracked.book, hpc, hrun]) (fun hcar => ?_) (by simp [Returns])
    obtain ⟨p, hp, hft⟩ := Option.map_eq_some_iff.mp hcar
    exact ⟨p, hp, by rw [hft]; exact (Option.filter_eq_some_iff.mp hrun).1⟩
  | @resets w g ft cb f r r' hpc hrun hcb hown hr hreset =>
    refine k.stay u o hpc e rfl rfl rfl (by simp [Tracked.book, hpc, hcb]) (fun hcar => ?_) (by simp [Returns])
    obtain ⟨p, hp, hft⟩ := Option.map_eq_some_iff.mp hcar
    exact ⟨p, cb, hp, by rw [hft, hcb], by simp [State.goto, State.put, reset_cb hreset]⟩
  | @makes w g ft cb hpc hrun hcb hown hg =>
    refine k.stay u o hpc e rfl rfl rfl (by simp [Tracked.book, hpc, hcb]) (fun hcar => ?_) (by simp [Returns])
    obtain ⟨p, hp, hft⟩ := Option.map_eq_some_iff.mp hcar
    exact ⟨p, cb, hp, by rw [hft, hcb], by simp [State.put]⟩
  | @discards w g ft hpc hrun hcb =>
    obtain ⟨p, hp, -⟩ := Option.map_eq_some_iff.mp (hat hpc).1
    refine k.move u o e rfl rfl (by simp [Tracked.book, hpc, hrun, hcb]) (k.kept.drop hp)
      (by rw [Ledger.drop_items]; exact k.nonempty) ?_ Ledger.drop_hand_self (hat hpc).2
    rw [Ledger.drop_contents]
    exact k.queue
  | exits hpc hown hterm =>
    exact k.stay u o hpc e rfl rfl rfl (by simp only [Tracked.book, hpc]) Option.map_eq_none_iff.mp rfl
  | idles hpc hown hterm =>
    exact k.stay u o hpc e rfl rfl rfl (by simp only [Tracked.book, hpc]) Option.map_eq_none_iff.mp
      (by simp [Returns])
  | @rewrites _ w st st' kd f r r' hpc hr h hthrew hact => exact k.rewrites u o hpc hr h hact e
  | @backs w g kd f hpc =>
    refine k.stay u o hpc e rfl rfl rfl (by simp only [Tracked.book, hpc]) ?_ (by simp [Returns, State.goto])
    cases kd <;> exact id
  | @readies w g kd f r hpc hr hready hk =>
    have hnone : s.ledger.hand w = none := by
      cases kd <;> exact (hat hpc).1
    have hb : s.book thread (.work w g) = ⟨s.state, s.ledger.put [{ fiber := some f }], s.readied,
        Function.update s.requeued w (f :: s.requeued w)⟩ := by
      simp [Tracked.book, hpc, hr, hready, hk]
    refine k.move u o e rfl rfl hb (k.kept.put _) (k.put_nonempty fun ft hft => ?_) ?_ hnone ?_
    · cases List.mem_singleton.mp hft
      rfl
    · rw [Ledger.put_contents, ← k.queue]
      exact scheduleAll_eq ..
    · have hread := (hat hpc).2
      simpa [Returns, hr, hready, hk] using hread
  | @ends w g kd f r hpc hr hend hk =>
    have hne : r.state ≠ .ready := by
      intro hs
      simp [Fiber.ended, hs] at hend
    refine k.stay u o hpc e rfl rfl rfl (by simp [Tracked.book, hpc, hr, hne]) ?_ (by simp [Returns, hr, hne])
    cases kd <;> exact id
  | @empties w g f r hpc hr hend =>
    have hne : r.state ≠ .ready := by
      intro hs
      simp [Fiber.ended, hs] at hend
    exact k.stay u o hpc e rfl rfl rfl (by simp [Tracked.book, hpc, hr, hne]) id (by simp [Returns, hr, hne])
  | @checks w g kd f r hpc hr hready hend =>
    have hne : ¬ (r.state = .ready ∧ kd ≠ .idle) := fun h => h.2 (hready h.1)
    refine k.stay u o hpc e rfl rfl rfl ?_ ?_ ?_
    · simp only [Tracked.book, hpc, hr, Option.any_some, decide_eq_true_eq, if_neg hne]
    · cases kd <;> exact id
    · simp only [Returns, hr, State.goto, Option.any_some, decide_eq_true_eq]
      rw [if_neg fun h => hne ⟨h.1, h.2.1⟩, if_neg fun h => hne ⟨h.1, h.2.1⟩]
  | @holds w g kd f r hpc hr =>
    refine k.stay u o hpc e rfl rfl rfl (by simp only [Tracked.book, hpc]) ?_ (by simp [Returns])
    cases kd <;> exact id

/-! ### Every reachable state -/

/-- What the scheduler and the account have to do with each other. -/
structure Conserved (s : Tracked ω φ κ) : Prop where
  fault : s.state.fault = none
  queue : s.state.fibers = s.ledger.contents
  /-- A node waits, or one worker has taken it and has it in its hand, or has switched to it
  once, or has passed it over once. -/
  fate : ∀ n ft, s.ledger.items[n]? = some ft →
    ((ft, n) ∈ s.ledger.waiting ∧ s.ledger.entry n = {}) ∨ ∃ w,
      (s.ledger.hand w = some (ft, n) ∧ s.ledger.entry n = { taken := [w] }) ∨
      s.ledger.entry n = { taken := [w], used := [w] } ∨ s.ledger.entry n = { taken := [w], dropped := [w] }
  carries : ∀ w, Carries s.state (s.state.pc w) (s.ledger.hand w)
  /-- Who yielded as READY was pushed back once, or the worker is about to. -/
  readied : ∀ w, s.readied w = Returns s.state (s.state.pc w) ++ s.requeued w
  active : Counts (fun w => (s.state.pc w).busy) s.state.activeThreadCount

/-- What the next step of a worker does with nodes. -/
structure Handles (thread : ω → Int) (s t : Tracked ω φ κ) (w : ω) : Prop where
  /-- It takes the earliest node that it may take. -/
  removes : ∀ p, s.ledger.hand w = none → t.ledger.hand w = some p →
    Takeable (thread w) s.state.isExec p.1 ∧ ∃ before after, s.ledger.waiting = before ++ p :: after ∧
      t.ledger.waiting = before ++ after ∧ ∀ q ∈ before, ¬ Takeable (thread w) s.state.isExec q.1
  /-- It switches to the fiber of the node, or to one with its callback. -/
  uses : ∀ p, s.ledger.hand w = some p → (t.ledger.entry p.2).used = [w] → ∃ k f,
    s.state.pc w = .inside .entered k f ∧ t.state.pc w = .inside .running k f ∧
      ((k = .task ∧ p.1.fiber = some f) ∨
        (k = .callback ∧ ∃ cb, p.1.cb = some cb ∧ (s.state.fiber f).bind (·.cb) = some cb))
  /-- It passes over a fiber that has ended. -/
  drops : ∀ p, s.ledger.hand w = some p → (t.ledger.entry p.2).dropped = [w] →
    p.1.cb = none ∧ ∃ f, p.1.fiber = some f ∧ s.state.ended f = true

/-- How many steps a worker is from the switch to the node's fiber. -/
def Pc.toSwitch : Pc φ κ → Nat
  | .chosen _ => 3
  | .inside .entry _ _ => 2
  | .inside .entered _ _ => 1
  | _ => 0

/-- A step of the scheduler under the account. -/
theorem tracked_step {t : Tracked ω φ κ} (h : Tracked.step thread s a = some t) :
    ∃ x, Workers.step thread s.state a = some x ∧
      t = { (if x.fault.isSome then s else s.book thread a) with state := x } := by
  obtain ⟨x, hx, rfl⟩ := Option.map_eq_some_iff.mp h
  exact ⟨x, hx, rfl⟩

theorem tracked_reachable {acts : List (Act ω φ κ)}
    (hm : Meets (Tracked.step thread) (fun s a => TakesFree thread s.state a) Tracked.start acts)
    (h : run (Tracked.step thread) Tracked.start acts = some s) :
    (Owned s.state ∧ Sole s.state) ∧ Counted s.state ∧ Accounted s := by
  refine run_invariant (P := fun s : Tracked ω φ κ => (Owned s.state ∧ Sole s.state) ∧ Counted s.state ∧
    Accounted s) (fun s a t k hg h => ?_) ⟨⟨start_owned, start_sole⟩, start_counted, start_accounted⟩ hm h
  obtain ⟨⟨o, u⟩, c, k⟩ := k
  obtain ⟨x, hx, rfl⟩ := tracked_step h
  have e := step_effect hx
  have u' := u.step o hg e
  rw [u'.fault]
  exact ⟨⟨o.step hg e, u'⟩, c.step e, k.step u o e⟩

/-- Without a fault a worker goes from the switch into the fiber. -/
theorem switchTo_spec {g : φ} {kd : Kind} (hpc : x.pc w = .inside .entered kd f)
    (h : Workers.step thread x (.work w g) = some t) (hfault : t.fault = none) :
    t.pc w = .inside .running kd f := by
  have h := (Option.ite_none_right_eq_some.mp h).2
  simp only [State.work, hpc] at h
  obtain ⟨r, hr, ⟨r', ho, rfl⟩ | ⟨e, ho, rfl⟩⟩ := modify_effect h
  · exact goto_pc ..
  · cases hfault

omit [DecidableEq ω] [DecidableEq φ] in
/-- Nothing happens to the node in the hand. -/
theorem handles_idle {t : Tracked ω φ κ} (k : Accounted s) (hhand : t.ledger.hand w = s.ledger.hand w)
    (hentry : t.ledger.entry = s.ledger.entry) : Handles thread s t w := by
  have hentry' : ∀ p, s.ledger.hand w = some p → t.ledger.entry p.2 = { taken := [w] } := by
    intro p hp
    rw [hentry]
    exact (k.kept.hands w p hp).2
  refine ⟨fun p hnone hp => ?_, fun p hp hused => ?_, fun p hp hdropped => ?_⟩
  · rw [hhand, hnone] at hp
    cases hp
  · rw [hentry' p hp] at hused
    cases hused
  · rw [hentry' p hp] at hdropped
    cases hdropped

theorem handles_step {t : Tracked ω φ κ} {g : φ} (k : Accounted s)
    (h : Tracked.step thread s (.work w g) = some t) : Handles thread s t w := by
  obtain ⟨x, hx, rfl⟩ := tracked_step h
  have hcar := k.carries w
  cases hfault : x.fault with
  | some e => exact handles_idle k rfl rfl
  | none =>
    show Handles thread s { s.book thread (.work w g) with state := x } w
    simp only [Tracked.book]
    split
    · rename_i hpc
      rw [hpc] at hcar
      refine ⟨fun p _ hp => ?_, fun p hp => ?_, fun p hp => ?_⟩
      · set may : FiberAndThread φ κ → Bool := fun it => Takeable (thread w) s.state.isExec it with hmay
        cases hfind : s.ledger.waiting.find? (may ·.1) with
        | none =>
          simp only [Ledger.take, hfind] at hp
          cases hcar.symm.trans hp
        | some q =>
          obtain ⟨htake, before, after, heq, hrest, hnone⟩ := Ledger.take_spec (w := w) hfind
          have hp : (s.ledger.take w may).hand w = some p := hp
          rw [Ledger.take_hand hfind, Function.update_self] at hp
          cases hp
          exact ⟨by simpa [hmay] using htake, before, after, heq, hrest, fun y hy => by simpa [hmay] using hnone y hy⟩
      · cases hcar.symm.trans hp
      · cases hcar.symm.trans hp
    · rename_i ft hpc
      rw [hpc] at hcar
      split
      · rename_i hdrop
        refine ⟨fun p hnone hp => ?_, fun p hp hused => ?_, fun p hp _ => ?_⟩
        · cases Ledger.drop_hand_self.symm.trans hp
        · simp only [Ledger.drop_eq k.kept hp, Function.update_self] at hused
          cases hused
        · obtain ⟨q, hq, hft⟩ := Option.map_eq_some_iff.mp hcar
          cases hp.symm.trans hq
          have hcb : p.1.cb = none := by
            rw [hft]
            exact Option.isNone_iff_eq_none.mp hdrop.2
          have hsome : p.1.fiber.isSome = true := by
            have hne := k.nonempty _ (List.mem_of_getElem? (k.kept.hands w p hp).1)
            simpa [FiberAndThread.nonempty, hcb] using hne
          obtain ⟨f, hf⟩ := Option.isSome_iff_exists.mp hsome
          refine ⟨hcb, f, hf, ?_⟩
          have hrun := hdrop.1
          rw [← hft] at hrun
          simpa [State.runnable, State.ended, hf] using hrun
      · exact handles_idle k rfl rfl
    · rename_i kd f hpc
      rw [hpc] at hcar
      split
      · exact handles_idle k rfl rfl
      · rename_i hk
        refine ⟨fun p hnone hp => ?_, fun p hp _ => ?_, fun p hp hdropped => ?_⟩
        · cases Ledger.use_hand_self.symm.trans hp
        · refine ⟨kd, f, hpc, switchTo_spec hpc hx hfault, ?_⟩
          cases kd with
          | task =>
            obtain ⟨q, hq, hf⟩ := hcar
            cases hp.symm.trans hq
            exact .inl ⟨rfl, hf⟩
          | callback =>
            obtain ⟨q, cb, hq, hcb⟩ := hcar
            cases hp.symm.trans hq
            exact .inr ⟨rfl, cb, hcb⟩
          | idle => exact absurd rfl hk
        · simp only [Ledger.use_eq k.kept hp, Function.update_self] at hdropped
          cases hdropped
    · split
      · exact handles_idle k rfl rfl
      · exact handles_idle k rfl rfl
    · exact handles_idle k rfl rfl

/-! ### A worker is not held up -/

omit [DecidableEq ω] in
theorem modify_isSome {r : Fiber κ} (hr : x.fiber f = some r) (op : Fiber κ → Except Fault (Fiber κ))
    (next : State ω φ κ → State ω φ κ) : ∃ t, x.modify f op next = some t := by
  cases hop : op r with
  | ok r' => exact ⟨_, by simp only [State.modify, hr, hop]; rfl⟩
  | error e => exact ⟨_, by simp only [State.modify, hr, hop]; rfl⟩

/-- From a node to the switch, unless its fiber has ended. -/
theorem choose_spec (o : Owned x) {ft : FiberAndThread φ κ} {g : φ} (hg : x.fiber g = none) :
    ∃ t, x.choose w (some ft) g = some t ∧ (t.fault = none →
      (∃ kd f, t.pc w = .inside .entry kd f) ∨ (x.runnable (some ft) = none ∧ ft.cb.isNone = true)) := by
  cases hrun : x.runnable (some ft) with
  | some f => exact ⟨_, by simp only [State.choose, hrun]; rfl, fun _ => .inl ⟨.task, f, goto_pc ..⟩⟩
  | none =>
    cases hcb : ft.cb with
    | none => exact ⟨_, by simp only [State.choose, hrun, Option.bind_some, hcb]; rfl, fun _ => .inr ⟨rfl, rfl⟩⟩
    | some cb =>
      cases hown : (x.worker w).cbFiber with
      | none =>
        refine ⟨_, by simp only [State.choose, hrun, Option.bind_some, hcb, hown, hg]; rfl, fun _ => ?_⟩
        exact .inl ⟨.callback, g, by simp [State.pc]⟩
      | some h =>
        obtain ⟨r, hr, -⟩ := Option.map_eq_some_iff.mp (o.cbFiber w h hown).1
        obtain ⟨t, ht⟩ := modify_isSome hr (·.reset (some cb)) fun s => s.goto w (.inside .entry .callback h)
        refine ⟨t, by simpa only [State.choose, hrun, Option.bind_some, hcb, hown] using ht, fun hfault => ?_⟩
        obtain ⟨-, -, ⟨r', -, rfl⟩ | ⟨e, -, rfl⟩⟩ := modify_effect ht
        · exact .inl ⟨.callback, h, goto_pc ..⟩
        · cases hfault

omit [DecidableEq ω] [DecidableEq φ] in
theorem carries_some {pc : Pc φ κ} {p : FiberAndThread φ κ × Nat} (h : Carries x pc (some p)) :
    pc = .chosen (some p.1) ∨ ∃ kd f, kd ≠ .idle ∧ (pc = .inside .entry kd f ∨ pc = .inside .entered kd f) := by
  unfold Carries at h
  split at h
  · exact .inl (congrArg _ h.symm)
  · exact .inr ⟨.task, _, nofun, .inl rfl⟩
  · exact .inr ⟨.task, _, nofun, .inr rfl⟩
  · exact .inr ⟨.callback, _, nofun, .inl rfl⟩
  · exact .inr ⟨.callback, _, nofun, .inr rfl⟩
  · cases h

/-- A worker with a node in its hand can take its next step, which brings it nearer to the
switch, or it is done with the node. -/
theorem moves_step {p : FiberAndThread φ κ × Nat} {g : φ} (k : Accounted s) (u : Sole s.state)
    (o : Owned s.state) (hp : s.ledger.hand w = some p) (hg : s.state.fiber g = none) :
    ∃ t, Tracked.step thread s (.work w g) = some t ∧ t.state.fault = none ∧
      (t.ledger.hand w = none ∨
        (t.ledger.hand w = some p ∧ (t.state.pc w).toSwitch < (s.state.pc w).toSwitch)) := by
  have hstep : ∀ {x}, s.state.work thread w g = some x → s.state.pc w ≠ .top → x.fault = none ∧
      Tracked.step thread s (.work w g) = some { s.book thread (.work w g) with state := x } := by
    intro x hx htop
    have hx : Workers.step thread s.state (.work w g) = some x := by
      simp only [Workers.step, u.fault, if_true, hx]
    have hfree : TakesFree thread s.state (.work w g) := by
      intro f hf
      unfold State.takes at hf
      split at hf
      · rename_i hpc
        exact absurd hpc htop
      · cases hf
    have hfault := (u.step o hfree (step_effect hx)).fault
    refine ⟨hfault, ?_⟩
    simp [Tracked.step, hx, hfault]
  have hcar := k.carries w
  rw [hp] at hcar
  obtain hpc | ⟨kd, f, hk, hpc | hpc⟩ := carries_some hcar
  · obtain ⟨x, hx, hspec⟩ := choose_spec (w := w) o hg
    obtain ⟨hfault, hstep⟩ := hstep (by simp only [State.work, hpc]; exact hx) (by rw [hpc]; simp)
    refine ⟨_, hstep, hfault, ?_⟩
    simp only [Tracked.book, hpc]
    split
    · exact .inl Ledger.drop_hand_self
    · rename_i hdrop
      obtain ⟨kd, f, hpc'⟩ := (hspec hfault).resolve_right hdrop
      refine .inr ⟨hp, ?_⟩
      rw [hpc']
      simp [Pc.toSwitch]
  · obtain ⟨r, hr, -⟩ := u.here hpc
    obtain ⟨x, hx⟩ := modify_isSome hr (·.swapIn) fun s => ({ s.goto w (.inside .entered kd f) with
      woken := Function.update s.woken f false } : State ω φ κ)
    obtain ⟨hfault, hstep⟩ := hstep (by simp only [State.work, hpc]; exact hx) (by rw [hpc]; simp)
    refine ⟨_, hstep, hfault, .inr ⟨?_, ?_⟩⟩
    · simp only [Tracked.book, hpc]
      exact hp
    · obtain ⟨-, -, ⟨r', -, rfl⟩ | ⟨e, -, rfl⟩⟩ := modify_effect hx
      · show Pc.toSwitch (((s.state.put f r').goto w (.inside .entered kd f)).pc w) < _
        rw [hpc, goto_pc]
        exact Nat.lt_succ_self 1
      · cases hfault
  · obtain ⟨r, hr, -⟩ := u.here hpc
    obtain ⟨x, hx⟩ := modify_isSome hr (·.switchTo) fun s => s.goto w (.inside .running kd f)
    obtain ⟨hfault, hstep⟩ := hstep (by simp only [State.work, hpc]; exact hx) (by rw [hpc]; simp)
    refine ⟨_, hstep, hfault, .inl ?_⟩
    simp only [Tracked.book, hpc, if_neg hk]
    exact Ledger.use_hand_self

/-- **Every task is run once**, in every run whose scans take free fibers: each node that is
pushed has one fate, a worker with a node comes to the switch by its own steps, and the next step
of any worker handles nodes as it should. -/
theorem conservation_reachable (thread : ω → Int) (acts : List (Act ω φ κ)) (s : Tracked ω φ κ)
    (hm : Meets (Tracked.step thread) (fun s a => TakesFree thread s.state a) Tracked.start acts)
    (h : run (Tracked.step thread) Tracked.start acts = some s) :
    Conserved s ∧ (∀ w g t, Tracked.step thread s (.work w g) = some t → Handles thread s t w) ∧
    ∀ w p, s.ledger.hand w = some p →
      (∀ g, s.state.fiber g = none → ∃ t, Tracked.step thread s (.work w g) = some t ∧
        t.state.fault = none ∧ (t.ledger.hand w = none ∨
          (t.ledger.hand w = some p ∧ (t.state.pc w).toSwitch < (s.state.pc w).toSwitch))) ∧
      ∀ a t, a.mover ≠ some w → Tracked.step thread s a = some t →
        t.ledger.hand w = some p ∧ t.state.pc w = s.state.pc w := by
  obtain ⟨⟨o, u⟩, c, k⟩ := tracked_reachable hm h
  refine ⟨⟨u.fault, k.queue, fun n ft hn => ?_, k.carries, k.readied, c.active⟩,
    fun w g t ht => handles_step k ht, fun w p hp => ⟨fun g hg => moves_step k u o hp hg, fun a t ha ht => ?_⟩⟩
  · obtain hwait | ⟨w, hw⟩ | ⟨w, hdone⟩ := k.kept.fate n ft hn
    · exact .inl ⟨hwait, (k.kept.waits _ hwait).2⟩
    · exact .inr ⟨w, .inl ⟨hw, (k.kept.hands w _ hw).2⟩⟩
    · exact .inr ⟨w, .inr hdone⟩
  · obtain ⟨x, hx, rfl⟩ := tracked_step ht
    obtain ⟨hworker, -⟩ := u.elsewhere o (step_effect hx) ha
    refine ⟨?_, pc_congr hworker⟩
    show (if x.fault.isSome then s else s.book thread a).ledger.hand w = _
    split
    · exact hp
    · rw [(book_elsewhere ha).1, hp]

end

/-! ### A fiber that is queued while it runs -/

/-- The fiber that a worker has taken and not yet switched to. -/
def Pc.holds : Pc φ κ → Option φ
  | .chosen ft => ft.bind (·.fiber)
  | .inside .entry _ f | .inside .entered _ f => some f
  | _ => none

/-- The fibers that are scheduled are not queued, not in the hands of a worker before the switch,
and not READY. -/
def Unqueued (s : State ω φ κ) : Act ω φ κ → Prop
  | .schedule nodes => (nodes.filterMap (·.fiber)).Nodup ∧ ∀ f ∈ nodes.filterMap (·.fiber),
      (∀ it ∈ s.fibers, it.fiber ≠ some f) ∧ (∀ w, (s.pc w).holds ≠ some f) ∧
        (s.fiber f).all (·.state ≠ .ready) = true
  | _ => True

instance [DecidableEq φ] [Fintype ω] (s : State ω φ κ) : (a : Act ω φ κ) → Decidable (Unqueued s a)
  | .schedule nodes => inferInstanceAs (Decidable ((nodes.filterMap (·.fiber)).Nodup ∧
      ∀ f ∈ nodes.filterMap (·.fiber), (∀ it ∈ s.fibers, it.fiber ≠ some f) ∧
        (∀ w, (s.pc w).holds ≠ some f) ∧ (s.fiber f).all (·.state ≠ .ready) = true))
  | .enter _ _ | .create _ _ | .work _ _ | .yieldToHold _ | .yieldToReady _ | .finish _ _ => isTrue trivial

/-- Fiber 1 is queued while worker 0 runs it, yields as READY, and worker 1 is in it again
before worker 0 looks at its state. -/
def lostActs : List (Act (Fin 2) Nat Nat) :=
  [.enter 0 10, .enter 1 11, .create 1 7, .schedule [{ fiber := some 1 }], .work 0 20, .work 0 20,
    .work 0 20, .work 0 20, .schedule [{ fiber := some 1 }], .yieldToReady 0, .work 0 20, .work 1 20,
    .work 1 20, .work 1 20, .work 0 20, .work 0 20, .work 0 20]

/-- Worker 0 finds EXEC instead of READY: it does not push the fiber back, and writes HOLD while
worker 1 is about to run it. -/
theorem ready_lost : ∃ s, run (Tracked.step fun w : Fin 2 => w.val) Tracked.start lostActs = some s ∧
    Meets (Tracked.step fun w : Fin 2 => w.val) (fun s a => Unqueued s.state a) Tracked.start lostActs ∧
    s.state.pc 0 = .top ∧ s.readied 0 = [1] ∧ s.requeued 0 = [] ∧ s.state.fibers = [] ∧
    s.state.pc 1 = .inside .entered .task 1 ∧ (s.state.fiber 1).any (·.state = .hold) = true :=
  ⟨_, rfl, by decide, rfl, rfl, rfl, rfl, rfl, rfl⟩

/-- A fiber that yields as READY, and a callback. -/
def tasksActs : List (Act (Fin 2) Nat Nat) :=
  [.enter 0 10, .enter 1 11, .create 1 7, .schedule [{ fiber := some 1, thread := 0 }, { cb := some 8 }],
    .work 1 20, .work 0 20, .work 1 20, .work 1 20, .work 1 20, .work 0 20, .work 0 20, .work 0 20,
    .yieldToReady 0, .work 0 20, .work 0 20, .work 0 20, .work 0 20]

theorem conservation_reachable_sample : ∃ s : Tracked (Fin 2) Nat Nat,
    run (Tracked.step fun w : Fin 2 => w.val) Tracked.start tasksActs = some s ∧
    s.ledger.hand 0 = some ({ fiber := some 1 }, 2) ∧
    Conserved s ∧
    (∀ w g t, Tracked.step (fun w : Fin 2 => w.val) s (.work w g) = some t →
      Handles (fun w : Fin 2 => w.val) s t w) ∧
    ∀ w p, s.ledger.hand w = some p →
      (∀ g, s.state.fiber g = none → ∃ t, Tracked.step (fun w : Fin 2 => w.val) s (.work w g) = some t ∧
        t.state.fault = none ∧ (t.ledger.hand w = none ∨
          (t.ledger.hand w = some p ∧ (t.state.pc w).toSwitch < (s.state.pc w).toSwitch))) ∧
      ∀ a t, a.mover ≠ some w → Tracked.step (fun w : Fin 2 => w.val) s a = some t →
        t.ledger.hand w = some p ∧ t.state.pc w = s.state.pc w :=
  ⟨_, rfl, rfl, conservation_reachable (fun w : Fin 2 => w.val) tasksActs _ (by decide) rfl⟩

end ShioSylar.Scheduler.Workers
