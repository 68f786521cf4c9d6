import ShioSylar.IOManager.Idle
import ShioSylar.Scheduler.Executing

/-! Wake-ups of idle workers.

A worker that finds nothing gives up the lock before it raises `m_idleThreadCount`; a `tickle`
in between finds the counter at zero and does nothing, and the worker goes to `epoll_wait`
(`sleeps_on`). In every run in which a `tickle` that does nothing leaves somebody who will look
at `m_fibers`, no worker sleeps on a task (`wakeup_reachable`): as long as `m_fibers` is not
empty, a call of `tickle` is to be done, or the pipe holds a byte, or a worker will scan
(`Roused`). -/
namespace ShioSylar.IOManager.Idle
open Scheduler Lib
open TimerManager (U64)

section
variable {ω τ φ ι κ : Type}

namespace State

/-- The worker has entered `run` and not left it. -/
def inRun (s : State ω τ φ ι κ) (w : ω) : Bool :=
  match s.run.pc w with
  | .out | .exited => false
  | _ => true

/-- The worker has found nothing and is before `++m_idleThreadCount`. -/
def missed (s : State ω τ φ ι κ) (w : ω) : Bool :=
  match s.run.pc w with
  | .chosen none => true
  | _ => false

/-- The worker is blocked in `epoll_wait`. -/
def blocked (s : State ω τ φ ι κ) (w : ω) : Bool :=
  s.inIdle w && (match s.idle w with | .wait => true | _ => false)

/-- The worker will scan `m_fibers` before it next blocks. -/
def awake (s : State ω τ φ ι κ) (w : ω) : Bool :=
  match s.run.pc w with
  | .top => true
  | .chosen ft => ft.isSome
  | .inside .entry k _ | .inside .entered k _ => k ≠ .idle
  | .inside .running k _ => k ≠ .idle || (match s.idle w with | .asking _ | .wait => false | _ => true)
  | .inside _ _ _ => true
  | _ => false

end State

/-- Every worker in `run` is blocked, nothing is on its way to wake one of them, and there is
a task that one of them may take. -/
structure Stuck (thread : ω → Int) (s : State ω τ φ ι κ) : Prop where
  some : ∃ w, s.blocked w = true
  all : ∀ w, s.inRun w = true → s.blocked w = true
  pipe : s.pipe = 0
  calls : ∀ x, s.calls x = .no
  task : ∃ it ∈ s.run.fibers, ∃ w, s.blocked w = true ∧ Takeable (thread w) s.run.isExec it

/-- The read of `m_idleThreadCount` finds zero, `m_fibers` is not empty, and nobody will look
at it: every worker in `run` has just missed it, the pipe is empty, and no other call of
`tickle` is under way. -/
structure Unheard (s : State ω τ φ ι κ) (x : ω ⊕ τ) : Prop where
  check : s.calls x = .check
  idle : s.run.idleThreadCount = 0
  fibers : s.run.fibers ≠ []
  pipe : s.pipe = 0
  others : ∀ y, y ≠ x → s.calls y = .no
  some : ∃ w, s.inRun w = true
  missed : ∀ w, s.inRun w = true → s.missed w = true

/-- No call of `tickle` goes unheard. -/
def Heard (s : State ω τ φ ι κ) : Act ω τ φ ι κ → Prop
  | .tickle x => ¬ Unheard s x
  | _ => True

instance [Fintype ω] [Fintype τ] (thread : ω → Int) (s : State ω τ φ ι κ) : Decidable (Stuck thread s) :=
  decidable_of_iff ((∃ w, s.blocked w = true) ∧ (∀ w, s.inRun w = true → s.blocked w = true) ∧ s.pipe = 0 ∧
      (∀ x, s.calls x = .no) ∧ ∃ it ∈ s.run.fibers, ∃ w, s.blocked w = true ∧ Takeable (thread w) s.run.isExec it)
    ⟨fun ⟨h1, h2, h3, h4, h5⟩ => ⟨h1, h2, h3, h4, h5⟩, fun ⟨h1, h2, h3, h4, h5⟩ => ⟨h1, h2, h3, h4, h5⟩⟩

instance [Fintype ω] [Fintype τ] [DecidableEq ω] [DecidableEq τ] (s : State ω τ φ ι κ) (x : ω ⊕ τ) :
    Decidable (Unheard s x) :=
  decidable_of_iff (s.calls x = .check ∧ s.run.idleThreadCount = 0 ∧ ¬ s.run.fibers.isEmpty ∧ s.pipe = 0 ∧
      (∀ y, y ≠ x → s.calls y = .no) ∧ (∃ w, s.inRun w = true) ∧ ∀ w, s.inRun w = true → s.missed w = true)
    ⟨fun ⟨h1, h2, h3, h4, h5, h6, h7⟩ => ⟨h1, h2, fun h => h3 (List.isEmpty_iff.mpr h), h4, h5, h6, h7⟩,
      fun ⟨h1, h2, h3, h4, h5, h6, h7⟩ => ⟨h1, h2, fun h => h3 (List.isEmpty_iff.mp h), h4, h5, h6, h7⟩⟩

instance [Fintype ω] [Fintype τ] [DecidableEq ω] [DecidableEq τ] (s : State ω τ φ ι κ) (a : Act ω τ φ ι κ) :
    Decidable (Heard s a) :=
  match a with
  | .tickle x => inferInstanceAs (Decidable (¬ Unheard s x))
  | .worker _ | .schedule _ _ | .timer _ _ | .table _ _ | .start | .autoStop | .stop | .ask _ | .read _ _
  | .wake _ _ | .expire _ _ _ | .put _ | .report _ _ _ _ | .drain _ | .swapOut _ => isTrue trivial

/-! ### Somebody will look -/

def Roused (s : State ω τ φ ι κ) : Prop :=
  s.run.fibers ≠ [] → (∃ x, s.calls x ≠ .no) ∨ 0 < s.pipe ∨ (∃ w, s.awake w = true) ∨
    ∀ w, s.inRun w = false

variable {s t : State ω τ φ ι κ} {w : ω}

theorem roused_awake (h : t.awake w = true) : Roused t :=
  fun _ => .inr (.inr (.inl ⟨w, h⟩))

/-- An awake worker is in `run`, and not blocked. -/
theorem awake_spec (h : s.awake w = true) : s.inRun w = true ∧ s.blocked w = false := by
  unfold State.awake at h
  unfold State.inRun State.blocked State.inIdle
  split at h <;> simp_all
  rename_i k f hpc
  cases k with
  | idle => cases hi : s.idle w <;> simp_all
  | task | callback => simp

theorem awake_top (h : s.run.pc w = .top) : s.awake w = true := by
  simp [State.awake, h]

/-- A worker that is with a task, or has left its `idle_fiber`, will look. -/
theorem awake_inside {st : Workers.Stage} {kd : Workers.Kind} {f : φ} (h : s.run.pc w = .inside st kd f)
    (hk : kd ≠ .idle ∨ (st ≠ .entry ∧ st ≠ .entered ∧ st ≠ .running)) : s.awake w = true := by
  cases st <;> simp_all [State.awake]

/-- So will one in `idle` that `epoll_wait` has returned to. -/
theorem awake_idle (h : s.inIdle w = true) (hw : ∀ q, s.idle w ≠ .asking q) (hwait : s.idle w ≠ .wait) :
    s.awake w = true := by
  unfold State.inIdle at h
  split at h
  · rename_i f hpc
    cases hi : s.idle w <;> simp_all [State.awake]
  · cases h

/-- In a run, who neither awakes nor idles has just missed. -/
theorem awake_or_missed (hin : s.inRun w = true) (hidle : (s.run.pc w).idling = false)
    (h : s.missed w = false) : s.awake w = true := by
  rcases hpc : s.run.pc w with _ | _ | ft | ⟨st, kd, f⟩ | _
  · simp [State.inRun, hpc] at hin
  · exact awake_top hpc
  · cases ft with
    | none => simp [State.missed, hpc] at h
    | some ft => simp [State.awake, hpc]
  · refine awake_inside hpc (or_iff_not_imp_left.mpr fun hk => ?_)
    obtain rfl : kd = .idle := not_not.mp hk
    cases st <;> simp_all [Workers.Pc.idling]
  · simp [State.inRun, hpc] at hin

/-- As long as somebody will look, nobody is stuck. -/
theorem Roused.not_stuck {thread : ω → Int} (k : Roused s) : ¬ Stuck thread s := by
  intro h
  obtain ⟨it, hit, -⟩ := h.task
  have hne : s.run.fibers ≠ [] := List.ne_nil_of_mem hit
  obtain ⟨x, hx⟩ | hpipe | ⟨w, hw⟩ | hout := k hne
  · exact hx (h.calls x)
  · have hzero := h.pipe
    omega
  · obtain ⟨hin, hnot⟩ := awake_spec hw
    cases hnot.symm.trans (h.all w hin)
  · obtain ⟨w, hw⟩ := h.some
    have hin := hout w
    unfold State.blocked State.inIdle at hw
    unfold State.inRun at hin
    split at hin <;> simp_all

/-- Nobody who will look is lost. -/
theorem Roused.mono (k : Roused s) (hfibers : t.run.fibers ≠ [] → s.run.fibers ≠ [])
    (hcalls : ∀ x, s.calls x ≠ .no → t.calls x ≠ .no) (hpipe : s.pipe ≤ t.pipe)
    (hawake : ∀ w, s.awake w = true → t.awake w = true)
    (hout : (∀ w, s.inRun w = false) → ∀ w, t.inRun w = false) : Roused t := by
  intro hne
  obtain ⟨x, hx⟩ | hp | ⟨w, hw⟩ | hnone := k (hfibers hne)
  · exact .inl ⟨x, hcalls x hx⟩
  · exact .inr (.inl (by omega))
  · exact .inr (.inr (.inl ⟨w, hawake w hw⟩))
  · exact .inr (.inr (.inr (hout hnone)))

theorem awake_congr (hpc : t.run.pc w = s.run.pc w) (hidle : t.idle w = s.idle w) :
    t.awake w = s.awake w := by
  unfold State.awake
  rw [hpc, hidle]

theorem inRun_congr (hpc : t.run.pc w = s.run.pc w) : t.inRun w = s.inRun w := by
  unfold State.inRun
  rw [hpc]

/-- No worker moves outside `idle`, and inside it only those who will not look. -/
theorem Roused.keep (k : Roused s) (hfibers : t.run.fibers ≠ [] → s.run.fibers ≠ [])
    (hcalls : ∀ x, s.calls x ≠ .no → t.calls x ≠ .no) (hpipe : s.pipe ≤ t.pipe)
    (hworker : t.run.worker = s.run.worker) (hidle : ∀ w, s.awake w = true → t.idle w = s.idle w) :
    Roused t := by
  have hpc : ∀ w, t.run.pc w = s.run.pc w := fun w => Workers.pc_congr (congrFun hworker w)
  refine k.mono hfibers hcalls hpipe (fun w hw => ?_) fun hout w => ?_
  · rw [awake_congr (hpc w) (hidle w hw)]
    exact hw
  · rw [inRun_congr (hpc w)]
    exact hout w

/-- A worker that will not look moves. -/
theorem Roused.doze (k : Roused s) (hfibers : t.run.fibers = s.run.fibers)
    (hcalls : ∀ x, s.calls x ≠ .no → t.calls x ≠ .no) (hpipe : s.pipe ≤ t.pipe)
    (hworker : ∀ w', w' ≠ w → t.run.worker w' = s.run.worker w')
    (hidle : ∀ w', s.awake w' = true → t.idle w' = s.idle w') (hin : s.inRun w = true)
    (hnot : s.awake w = false) : Roused t := by
  refine k.mono (fun hne => hfibers ▸ hne) hcalls hpipe (fun w' hw' => ?_) fun hout => ?_
  · have hww : w' ≠ w := by
      rintro rfl
      cases hnot.symm.trans hw'
    rw [awake_congr (Workers.pc_congr (hworker w' hww)) (hidle w' hw')]
    exact hw'
  · cases hin.symm.trans (hout w)

section
variable [DecidableEq ω] [DecidableEq τ] {x : ω ⊕ τ}

/-- A call of `tickle` is added. -/
theorem calls_update {y : ω ⊕ τ} (h : s.calls y ≠ .no) : Function.update s.calls x .check y ≠ .no := by
  by_cases hyx : y = x
  · rw [hyx, Function.update_self]
    nofun
  · rwa [Function.update_of_ne hyx]

/-- Tasks are put into `m_fibers`: into an empty one with a call of `tickle`. -/
theorem Roused.push (k : Roused s) {nodes : List (FiberAndThread φ (Job ι κ))}
    (hfibers : t.run.fibers = scheduleAll s.run.fibers nodes) (hworker : t.run.worker = s.run.worker)
    (hcalls : t.calls = if needTickle s.run.fibers nodes then Function.update s.calls x .check else s.calls)
    (hpipe : t.pipe = s.pipe) (hidle : t.idle = s.idle) : Roused t := by
  by_cases hneed : needTickle s.run.fibers nodes = true
  · refine fun _ => .inl ⟨x, ?_⟩
    rw [hcalls, if_pos hneed, Function.update_self]
    nofun
  · refine k.keep (fun hne hempty => ?_) (fun y hy => ?_) hpipe.ge hworker fun w _ => by rw [hidle]
    · rw [needTickle_eq, hempty] at hneed
      rw [hfibers, scheduleAll_eq, hempty] at hne
      obtain rfl : nodes = [] := by simpa using hneed
      exact hne rfl
    · rwa [hcalls, if_neg hneed]

/-! ### Every run -/

variable [DecidableEq φ]

omit [DecidableEq τ] [DecidableEq φ] in
/-- A step into an `idle_fiber` moves nobody who will look. -/
theorem begins_awake {b : Workers.Act ω φ (Job ι κ)} (h : s.awake w = true) : s.begins b w = s.idle w := by
  obtain heq | ⟨⟨f, hpc⟩, -⟩ := begins_spec s b w
  · exact heq
  · simp [State.awake, hpc] at h

omit [DecidableEq ω] [DecidableEq τ] [DecidableEq φ] in
/-- A scan that finds nothing and asks for no tickle has seen the fibers of workers that will
look. -/
theorem scan_awake {thread : Int} {x : Fetched φ (Job ι κ)} (e : Workers.Executing s.run)
    (a : Workers.Awaited s.run) (hx : fetch thread s.run.isExec s.run.fibers = some x)
    (hnone : x.task = none) (htickle : x.tickleMe = false) (hne : s.run.fibers ≠ []) :
    ∃ w f kd st, s.run.pc w = .inside st kd f ∧ kd ≠ .idle := by
  obtain ⟨it, rest, hit⟩ := List.exists_cons_of_ne_nil hne
  have hmem : it ∈ s.run.fibers := by
    rw [hit]
    exact List.mem_cons_self
  obtain ⟨f, hf, hexec⟩ := Option.any_eq_true .. |>.mp (fetch_quiet hx hnone htickle it hmem)
  obtain ⟨w, st, kd, hpc⟩ := e.exec f hexec
  refine ⟨w, f, kd, st, hpc, ?_⟩
  rintro rfl
  obtain ⟨o, ho, hidle⟩ := Workers.shared_iff.mp ((e.queue it hmem).2 f hf)
  cases (a.idle w st f hpc).symm.trans ho
  exact hidle rfl

/-- The scheduler takes a step outside `idle`. -/
theorem Roused.works {thread : ω → Int} {b : Workers.Act ω φ (Job ι κ)} {r : Workers.State ω φ (Job ι κ)}
    (k : Roused s) (e : Workers.Executing s.run) (a : Workers.Awaited s.run)
    (hb : ∀ nodes, b ≠ .schedule nodes) (h : Workers.Effect thread s.run b r) (hrun : t.run = r)
    (hpipe : t.pipe = s.pipe)
    (hcalls : t.calls = match s.tickles thread b with
      | some w => Function.update s.calls (.inl w) .check
      | none => s.calls)
    (hidle : t.idle = s.begins b) : Roused t := by
  have hkept : ∀ x, s.calls x ≠ .no → t.calls x ≠ .no := by
    intro x hx
    rw [hcalls]
    split
    · exact calls_update hx
    · exact hx
  have hlook : ∀ w, s.awake w = true → t.idle w = s.idle w := by
    intro w hw
    rw [hidle, begins_awake hw]
  have hpc : ∀ {w x}, r.worker = Function.update s.run.worker w x → t.run.pc w = x.pc := by
    intro w x hw
    rw [hrun]
    exact Workers.pc_update_self hw
  have hother : ∀ {w x}, r.worker = Function.update s.run.worker w x →
      ∀ w', w' ≠ w → t.run.worker w' = s.run.worker w' := by
    intro w x hw w' hne
    rw [hrun, hw, Function.update_of_ne hne]
  -- one who will not look moves, or the one who moves will look
  have hdoze : ∀ {w x}, r.worker = Function.update s.run.worker w x → r.fibers = s.run.fibers →
      s.inRun w = true → s.awake w = false → Roused t := by
    intro w x hw hfibers hin hnot
    exact k.doze (hrun ▸ hfibers) hkept hpipe.ge (hother hw) hlook hin hnot
  cases h with
  | fails h => exact k.keep (by rw [hrun]; exact id) hkept hpipe.ge (by rw [hrun]) hlook
  | enters hi hfib => exact roused_awake (awake_top (hpc rfl))
  | creates hf => exact k.keep (by rw [hrun]; exact id) hkept hpipe.ge (by rw [hrun]; rfl) hlook
  | schedules hok => exact absurd rfl (hb _)
  | @scans w g x htop hx =>
    cases htask : x.task with
    | some it => exact roused_awake (w := w) (by simp [State.awake, hpc rfl, htask])
    | none =>
      intro hne
      cases htickle : x.tickleMe with
      | true =>
        refine .inl ⟨.inl w, ?_⟩
        have htickles : s.tickles thread (.work w g) = some w := by simp [State.tickles, htop, hx, htickle]
        rw [hcalls, htickles]
        simp
      | false =>
        rw [hrun] at hne
        obtain ⟨w', f, kd, st, hin, hkd⟩ := scan_awake e a hx htask htickle (fetch_none hx htask ▸ hne)
        have hww : w' ≠ w := by
          rintro rfl
          cases htop.symm.trans hin
        have hsame : t.run.pc w' = .inside st kd f := by
          rw [hrun]
          exact (Workers.pc_update_of_ne rfl hww).trans hin
        exact .inr (.inr (.inl ⟨w', awake_inside hsame (.inl hkd)⟩))
  | runs hch hrn => exact roused_awake (awake_inside (hpc rfl) (.inl (by simp)))
  | resets hch hrn hcb hown hr hreset => exact roused_awake (awake_inside (hpc rfl) (.inl (by simp)))
  | makes hch hrn hcb hown hg => exact roused_awake (awake_inside (hpc rfl) (.inl (by simp)))
  | discards hch hrn hcb => exact roused_awake (awake_top (hpc rfl))
  | exits hch hown hterm => exact hdoze rfl rfl (by simp [State.inRun, hch]) (by simp [State.awake, hch])
  | idles hch hown hterm => exact hdoze rfl rfl (by simp [State.inRun, hch]) (by simp [State.awake, hch])
  | @rewrites _ w st st' kd f r r' hin hr h hthrew hact =>
    by_cases hkd : kd = .idle
    · subst hkd
      cases h with
      | swapIn hne => exact hdoze rfl rfl (by simp [State.inRun, hin]) (by simp [State.awake, hin])
      | switchTo hsaved => exact hdoze rfl rfl (by simp [State.inRun, hin]) (by simp [State.awake, hin])
      | yieldToHold | yieldToReady | term | except | switchFrom =>
        exact roused_awake (awake_inside (hpc rfl) (.inr ⟨(by simp), (by simp), (by simp)⟩))
    · exact roused_awake (awake_inside (hpc rfl) (.inl hkd))
  | backs hin => exact roused_awake (awake_inside (hpc rfl) (.inr ⟨(by simp), (by simp), (by simp)⟩))
  | readies hin hr hready hk => exact roused_awake (awake_top (hpc rfl))
  | ends hin hr hend hk => exact roused_awake (awake_top (hpc rfl))
  | empties hin hr hend => exact roused_awake (awake_top (hpc rfl))
  | checks hin hr hready hend => exact roused_awake (awake_inside (hpc rfl) (.inr ⟨(by simp), (by simp), (by simp)⟩))
  | holds hin hr => exact roused_awake (awake_top (hpc rfl))

variable [LinearOrder ι] {thread : ω → Int}

/-- What every run has of the scheduler below. -/
structure Sound (s : State ω τ φ ι κ) : Prop where
  counted : Workers.Counted s.run
  awaited : Workers.Awaited s.run
  executing : Workers.Executing s.run

omit [DecidableEq ω] [DecidableEq τ] [DecidableEq φ] [LinearOrder ι] in
theorem init_sound (now : U64) : Sound (State.init now : State ω τ φ ι κ) :=
  ⟨Workers.start_counted, Workers.start_awaited, Workers.start_executing⟩

theorem Sound.step {a : Act ω τ φ ι κ} (k : Sound s) (h : Effect thread s a t) : Sound t := by
  obtain heq | ⟨b, he⟩ := h.run
  · exact ⟨heq ▸ k.counted, heq ▸ k.awaited, heq ▸ k.executing⟩
  · exact ⟨k.counted.step he, k.awaited.step he, k.executing.step he⟩

omit [DecidableEq φ] [LinearOrder ι] in
/-- The read of `m_idleThreadCount`. -/
theorem checks_roused {x : ω ⊕ τ} (c : Workers.Counted s.run) (hx : s.calls x = .check)
    (hheard : ¬ Unheard s x) :
    Roused { s with calls := Function.update s.calls x (if 0 < s.run.idleThreadCount then .write else .no) } := by
  intro hne
  by_cases hcount : 0 < s.run.idleThreadCount
  · refine .inl ⟨x, ?_⟩
    show Function.update _ _ _ _ ≠ _
    rw [Function.update_self, if_pos hcount]
    nofun
  · have hzero : s.run.idleThreadCount = 0 := by
      have hnonneg := c.idle.nonneg
      omega
    by_contra hnot
    push Not at hnot
    obtain ⟨hcalls, hpipe, hawake, hsome⟩ := hnot
    -- nobody idles, so whoever will not look has missed it
    refine hheard ⟨hx, hzero, hne, Nat.eq_zero_of_not_pos hpipe.not_gt, fun y hy => ?_, ?_, fun w hw => ?_⟩
    · have hcall := hcalls y
      simpa [Function.update_of_ne hy] using hcall
    · obtain ⟨w, hw⟩ := hsome
      exact ⟨w, (Bool.not_eq_false _).mp hw⟩
    · by_contra hmissed
      have hidle := c.idle
      rw [hzero] at hidle
      exact hawake w (awake_or_missed hw (hidle.none w) ((Bool.not_eq_true _).mp hmissed))

omit [DecidableEq ω] [DecidableEq τ] [DecidableEq φ] [LinearOrder ι] in
/-- Who asks will not look. -/
theorem asks_awake (h : s.awake w = true) : s.asks (.inl w) = none := by
  by_contra hne
  obtain ⟨q, hq⟩ := Option.ne_none_iff_exists'.mp hne
  obtain ⟨hin, hidle⟩ := asks_inIdle hq
  unfold State.inIdle at hin
  split at hin
  · rename_i f hpc
    simp [State.awake, hpc, hidle] at h
  · cases hin

omit [DecidableEq ω] [DecidableEq τ] [DecidableEq φ] [LinearOrder ι] in
theorem Roused.reads {x : ω ⊕ τ} {q : Option Asking} (k : Roused s) (h : Reads s x q t) : Roused t :=
  k.keep (by rw [h.run]; exact id) (fun y hy => by rwa [h.calls]) h.pipe.ge (by rw [h.run])
    fun w hw => h.idle w (asks_awake hw)

theorem Roused.step {a : Act ω τ φ ι κ} (k : Roused s) (i : Sound s) (hheard : Heard s a)
    (h : Effect thread s a t) : Roused t := by
  cases h with
  | works hb hok he =>
    refine k.works i.executing i.awaited (fun nodes heq => ?_) he rfl rfl rfl rfl
    rw [heq] at hok
    cases hok
  | @leaves _ b w r hidle hmover hnot he hread =>
    refine k.works i.executing i.awaited (b := b) (fun nodes heq => ?_) he rfl rfl ?_ ?_
    · rw [heq] at hmover
      cases hmover
    · cases b with
      | work w g => cases hmover; exact absurd rfl (hnot g)
      | _ => rfl
    · cases b with
      | work w g => cases hmover; exact absurd rfl (hnot g)
      | _ => rfl
  | pushes hn he => exact k.push rfl rfl rfl rfl rfl
  | checks hx => exact checks_roused i.counted hx hheard
  | writes hx => exact fun _ => .inr (.inl (Nat.succ_pos _))
  | times hop hl =>
    refine k.keep id (fun y hy => ?_) le_rfl rfl fun _ _ => rfl
    show (if _ then _ else s.calls) y ≠ _
    split
    · exact calls_update hy
    · exact hy
  | touches hop hn he ha => exact k.push (x := _) rfl rfl rfl rfl rfl
  | flags ha => exact k.keep id (fun _ hy => hy) le_rfl rfl fun _ _ => rfl
  | asks hy => exact k.keep id (fun _ hy => hy) le_rfl rfl fun _ _ => rfl
  | reads hq hres => exact k.reads (look_reads hq _)
  | answers hq hres hb => exact k.reads (look_reads hq _)
  | @wakes w tickled hidle hw hpipe =>
    exact roused_awake (awake_idle (w := w) hidle (by simp) (by simp))
  | @expires w now tmp tickled l hidle hw hl =>
    refine roused_awake (awake_idle (w := w) hidle (fun q => ?_) ?_)
    · simp only [State.note, Function.update_self]
      split <;> nofun
    · simp only [State.note, Function.update_self]
      split <;> nofun
  | @puts w tickled cbs hidle hw he =>
    exact roused_awake (awake_idle (w := w) hidle (by simp) (by simp))
  | @drains w hidle hw =>
    exact roused_awake (awake_idle (w := w) hidle (by simp) (by simp))

theorem wakeup_invariant {now : U64} {acts : List (Act ω τ φ ι κ)}
    (h : run (step thread) (State.init now) acts = some s)
    (hm : Meets (step thread) Heard (State.init now) acts) : Sound s ∧ Roused s :=
  run_invariant (P := fun s => Sound s ∧ Roused s)
    (fun _ _ _ k hg h => ⟨k.1.step (step_effect h), k.2.step k.1 hg (step_effect h)⟩)
    ⟨init_sound now, fun hne => absurd rfl hne⟩ hm h

/-- **No worker sleeps on a task** in a run in which no call of `tickle` goes unheard. -/
theorem wakeup_reachable (thread : ω → Int) (now : U64) (acts : List (Act ω τ φ ι κ)) (s : State ω τ φ ι κ)
    (h : run (step thread) (State.init now) acts = some s)
    (hm : Meets (step thread) Heard (State.init now) acts) : ¬ Stuck thread s :=
  (wakeup_invariant h hm).2.not_stuck

end

end

/-- The worker scans an empty `m_fibers`; before it raises `m_idleThreadCount` the main thread
schedules a callback and calls `tickle`. -/
def sleepsActs : List (Act Unit Unit Nat Nat Nat) :=
  [.worker (.enter () 10), .worker (.work () 20), .schedule (.inr ()) [{ cb := some 7 }],
    .tickle (.inr ()), .worker (.work () 20), .worker (.work () 20), .worker (.work () 20),
    .read (.inl ()) 0, .read (.inl ()) 0, .read (.inl ()) 0]

/-- The worker goes to `epoll_wait`, and nothing will wake it. -/
theorem sleeps_on : ∃ s, run (step fun _ : Unit => 0) (State.init 0) sleepsActs = some s ∧
    Stuck (fun _ : Unit => 0) s := by
  have hstuck : (run (step fun _ : Unit => 0) (State.init 0) sleepsActs).any
      (fun s => Stuck (fun _ : Unit => 0) s) = true := by decide +kernel
  simpa using Option.any_eq_true .. |>.mp hstuck

/-- The main thread comes later, when the worker is counted. -/
def wakesActs : List (Act Unit Unit Nat Nat Nat) :=
  [.worker (.enter () 10), .worker (.work () 20), .worker (.work () 20),
    .schedule (.inr ()) [{ cb := some 7 }], .tickle (.inr ()), .worker (.work () 20), .tickle (.inr ()),
    .worker (.work () 20), .read (.inl ()) 0, .read (.inl ()) 0, .read (.inl ()) 0]

theorem wakeup_reachable_sample : ∃ s, run (step fun _ : Unit => 0) (State.init 0) wakesActs = some s ∧
    s.blocked () = true ∧ s.run.fibers ≠ [] ∧ ¬ Stuck (fun _ : Unit => 0) s := by
  have hrun : (run (step fun _ : Unit => 0) (State.init 0) wakesActs).any
      (fun s => s.blocked () && !s.run.fibers.isEmpty) = true := by decide +kernel
  obtain ⟨s, hs, hwaits⟩ := Option.any_eq_true .. |>.mp hrun
  simp only [Bool.and_eq_true, Bool.not_eq_true', List.isEmpty_eq_false_iff] at hwaits
  exact ⟨s, hs, hwaits.1, hwaits.2, wakeup_reachable (fun _ : Unit => 0) 0 wakesActs s hs (by decide +kernel)⟩

end ShioSylar.IOManager.Idle
