import ShioSylar.Scheduler.Joins

/-! What `start` and `stop` leave behind, in every run.

`Stops` needs nothing of the run. That `m_fibers` is drained needs that nobody outside calls
`schedule` once `stop` has been called (`Before`). -/
namespace ShioSylar.Scheduler.Lifecycle
open Lib Workers

variable {ω φ κ : Type}

/-- `m_stopping` is written by `stop`. -/
def Creator.stopping : Creator ω → Bool
  | .fresh | .spawning _ | .waiting _ _ | .started | .flagged => false
  | _ => true

/-- `m_autoStop` is written by `stop`. -/
def Creator.autoStop : Creator ω → Bool
  | .fresh | .spawning _ | .waiting _ _ | .started => false
  | _ => true

/-- `stop` runs no worker any more. -/
def Creator.leaving : Creator ω → Bool
  | .swapping | .joining _ | .returned => true
  | _ => false

structure Stops (thread : ω → Int) (s : State ω φ κ) : Prop where
  threads : Threads thread s
  counted : Counted s.stopper.state
  awaited : Awaited s.stopper.state
  executing : Executing s.stopper.state
  fresh : s.creator = .fresh → ∀ w, s.pc w = .out ∧ (s.object w).pc = .absent
  locked : s.locked = true → ∀ w, s.pc w = .out ∨ s.pc w = .top
  stopping : s.creator.stopping = true → s.stopper.isStopping = true
  autoStop : s.creator.autoStop = true → s.stopper.autoStop = true
  joining : ∀ left, s.creator = .joining left → left.length ≤ s.threadCount
  nodup : s.threads.Nodup

section
variable {thread : ω → Int} {s t : State ω φ κ} {a : Act ω φ κ}

/-- Where the creator goes, and the threads that are made then. -/
inductive Goes (s : State ω φ κ) : Creator ω → List ω → Prop where
  | started (hc : s.creator = .spawning []) : Goes s .started s.threads
  | waiting {w left} (hc : s.creator = .spawning (w :: left)) : Goes s (.waiting w left) s.threads
  | spawning {w left} (hc : s.creator = .waiting w left) : Goes s (.spawning left) (s.threads ++ [w])
  | marked (hc : s.creator = .flagged) : Goes s .marked s.threads
  | stopped (hc : s.creator = .flagged ∨ s.creator = .marked) : Goes s .stopped s.threads
  | early (hc : s.creator = .marked) (hstop : s.stopper.stopping = true) : Goes s .returned s.threads
  | inRoot (hc : s.creator = .stopped) : Goes s .inRoot s.threads
  | passed (hc : s.creator = .stopped) (hstop : s.caller.isSome = true → s.stopper.stopping = true) :
      Goes s .swapping s.threads
  | exited {w} (hc : s.creator = .inRoot) (hcaller : s.caller = some w) (hpc : s.pc w = .exited) :
      Goes s .swapping s.threads
  | joining (hc : s.creator = .swapping) : Goes s (.joining s.threads) []
  | joined {w left} (hc : s.creator = .joining (w :: left)) : Goes s (.joining left) s.threads
  | returned (hc : s.creator = .joining []) : Goes s .returned s.threads

/-- What the creator has done stays done. -/
theorem goes_flags {c : Creator ω} {ws : List ω} (g : Goes s c ws) :
    c ≠ .fresh ∧ (c.stopping = true → s.creator.stopping = true ∨ s.creator = .flagged) ∧
      (c.autoStop = true → s.creator.autoStop = true) ∧
      (∀ left, c = .joining left → s.creator = .swapping ∧ left = s.threads ∨ ∃ w, s.creator = .joining (w :: left)) := by
  cases g with
  | started | waiting | spawning =>
    exact ⟨by simp, fun h => (by cases h), fun h => (by cases h), fun _ h => (by cases h)⟩
  | marked hc => exact ⟨by simp, fun _ => .inr hc, fun _ => by rw [hc]; rfl, fun _ h => (by cases h)⟩
  | stopped hc =>
    obtain hc | hc := hc
    · exact ⟨by simp, fun _ => .inr hc, fun _ => by rw [hc]; rfl, fun _ h => (by cases h)⟩
    · exact ⟨by simp, fun _ => .inl (by rw [hc]; rfl), fun _ => by rw [hc]; rfl, fun _ h => (by cases h)⟩
  | early hc | inRoot hc | passed hc | exited hc | returned hc =>
    exact ⟨by simp, fun _ => .inl (by rw [hc]; rfl), fun _ => by rw [hc]; rfl, fun _ h => (by cases h)⟩
  | joining hc =>
    exact ⟨by simp, fun _ => .inl (by rw [hc]; rfl), fun _ => by rw [hc]; rfl, fun _ h => .inl ⟨hc, by cases h; rfl⟩⟩
  | joined hc =>
    exact ⟨by simp, fun _ => .inl (by rw [hc]; rfl), fun _ => by rw [hc]; rfl,
      fun _ h => .inr (by cases h; exact ⟨_, hc⟩)⟩

theorem goes_locked {c : Creator ω} {ws : List ω} (g : Goes s c ws) :
    State.locked { s with creator := c } = true → s.locked = true := by
  unfold State.locked
  cases g with
  | waiting hc | spawning hc =>
    rw [hc]
    exact fun _ => rfl
  | started | marked | stopped | early | inRoot | passed | exited | joining | joined | returned => exact fun h => by cases h

variable [DecidableEq ω]

theorem init_stops (thread : ω → Int) (name : String) (threads : Nat) (caller : Option ω) :
    Stops thread (init thread name threads caller : State ω φ κ) :=
  ⟨init_threads thread name threads caller, start_counted, start_awaited, start_executing, fun _ _ => ⟨rfl, rfl⟩,
    fun h => (by cases h), fun h => (by cases h), fun h => (by cases h), fun _ h => (by cases h), .nil⟩

variable [DecidableEq φ]

theorem create_goes (h : s.create thread = some t) :
    Goes s t.creator t.threads ∧ t.stopper.state = s.stopper.state ∧ t.stopper.autoStop = s.stopper.autoStop ∧
      (s.stopper.isStopping = true ∨ s.creator = .flagged → t.stopper.isStopping = true) ∧
      t.threadCount = s.threadCount ∧ t.caller = s.caller ∧ t.name = s.name := by
  -- a step that leaves the flags
  have hkeep : s.creator ≠ .flagged → (s.stopper.isStopping = true ∨ s.creator = .flagged →
      s.stopper.isStopping = true) := fun hne h => h.resolve_right hne
  unfold State.create at h
  split at h
  · cases h
  · cases h
  · cases h
  · rename_i hc
    cases h
    exact ⟨.started hc, rfl, rfl, hkeep (by rw [hc]; simp), rfl, rfl, rfl⟩
  · rename_i hc
    obtain ⟨-, h⟩ := Option.ite_none_right_eq_some.mp h
    cases h
    exact ⟨.waiting hc, rfl, rfl, hkeep (by rw [hc]; simp), rfl, rfl, rfl⟩
  · rename_i hc
    obtain ⟨-, h⟩ := Option.ite_none_right_eq_some.mp h
    cases h
    exact ⟨.spawning hc, rfl, rfl, hkeep (by rw [hc]; simp), rfl, rfl, rfl⟩
  · rename_i hc
    cases h
    refine ⟨?_, rfl, rfl, fun _ => rfl, rfl, rfl, rfl⟩
    show Goes s (if _ then _ else _) s.threads
    split
    · exact .marked hc
    · exact .stopped (.inl hc)
  · rename_i hc
    split at h
    · cases h
      exact ⟨.early hc ‹_›, rfl, rfl, hkeep (by rw [hc]; simp), rfl, rfl, rfl⟩
    · cases h
      exact ⟨.stopped (.inr hc), rfl, rfl, fun _ => rfl, rfl, rfl, rfl⟩
  · rename_i hc
    cases h
    refine ⟨?_, rfl, rfl, hkeep (by rw [hc]; simp), rfl, rfl, rfl⟩
    show Goes s (if _ then _ else _) s.threads
    split
    · exact .inRoot hc
    · rename_i hno
      exact .passed hc fun hs => by
        by_contra hstop
        exact hno ⟨hs, hstop⟩
  · rename_i hc
    split at h
    · rename_i hex
      cases h
      obtain ⟨w, hw, hpc⟩ := Option.map_eq_some_iff.mp hex
      exact ⟨.exited hc hw hpc, rfl, rfl, hkeep (by rw [hc]; simp), rfl, rfl, rfl⟩
    · cases h
  · rename_i hc
    cases h
    exact ⟨.joining hc, rfl, rfl, hkeep (by rw [hc]; simp), rfl, rfl, rfl⟩
  · rename_i hc
    cases h
    exact ⟨.returned hc, rfl, rfl, hkeep (by rw [hc]; simp), rfl, rfl, rfl⟩
  · rename_i hc
    obtain ⟨-, h⟩ := Option.ite_none_right_eq_some.mp h
    cases h
    exact ⟨.joined hc, rfl, rfl, hkeep (by rw [hc]; simp), rfl, rfl, rfl⟩

omit [DecidableEq ω] [DecidableEq φ] in
theorem goes_nodup (k : Stops thread s) {c : Creator ω} {ws : List ω} (g : Goes s c ws) : ws.Nodup := by
  cases g with
  | @spawning w left hc =>
    obtain ⟨-, hnew, -⟩ := k.threads.waiting w left hc
    rw [← List.concat_eq_append]
    exact k.nodup.concat hnew
  | joining => exact .nil
  | started | waiting | marked | stopped | early | inRoot | passed | exited | joined | returned => exact k.nodup

theorem Stops.create (k : Stops thread s) (h : s.create thread = some t) : Stops thread t := by
  obtain ⟨g, hstate, hauto, hstop, hcount, -⟩ := create_goes h
  obtain ⟨hfresh, hstopping, hautoStop, hjoining⟩ := goes_flags g
  have hpc : ∀ w, t.pc w = s.pc w := fun w => by rw [State.pc, hstate]; rfl
  refine ⟨k.threads.create h, hstate ▸ k.counted, hstate ▸ k.awaited, hstate ▸ k.executing, fun hf => absurd hf hfresh,
    fun hl w => hpc w ▸ k.locked (goes_locked g hl) w, fun hs => hstop ?_, fun ha => hauto.trans (k.autoStop (hautoStop ha)),
    fun left hj => hcount ▸ ?_, goes_nodup k g⟩
  · exact (hstopping hs).imp_left k.stopping
  · obtain ⟨hc, rfl⟩ | ⟨w, hw⟩ := hjoining left hj
    · have hcount := k.threads.count (by rw [hc]; rfl)
      omega
    · have := k.joining _ hw
      rw [List.length_cons] at this
      omega

/-- While `start` holds the mutex, nobody is past its first scan. -/
theorem locked_step {b : Workers.Act ω φ κ} {u : Workers.State ω φ κ} (e : Effect thread s.stopper.state b u)
    (hout : ∀ w, s.pc w = .out ∨ s.pc w = .top) (hmutex : s.takesMutex b = false) (w : ω) :
    u.pc w = .out ∨ u.pc w = .top := by
  -- nobody is anywhere else
  have hno : ∀ {w : ω} {pc : Pc φ κ}, s.stopper.state.pc w = pc → pc ≠ .out → pc ≠ .top → False := by
    intro w pc hpc h₁ h₂
    exact (hout w).elim (fun h => h₁ (hpc.symm.trans h)) fun h => h₂ (hpc.symm.trans h)
  cases e with
  | fails | creates | schedules => exact hout w
  | @enters v i hpc hi =>
    by_cases hw : w = v
    · subst hw
      exact .inr (pc_update_self (x := { pc := .top, idleFiber := some i }) rfl)
    · rw [pc_update_of_ne rfl hw]
      exact hout w
  | @scans v g x hpc hx =>
    have hpc : s.pc v = .top := hpc
    simp [State.takesMutex, hpc] at hmutex
  | runs hpc | resets hpc | makes hpc | discards hpc | exits hpc | idles hpc | rewrites hpc | backs hpc | readies hpc
  | ends hpc | empties hpc | checks hpc | holds hpc => exact (hno hpc (by simp) (by simp)).elim

/-- Nobody enters `run` before `start`. -/
theorem fresh_step (k : Stops thread s) (hc : s.creator = .fresh) {b : Workers.Act ω φ κ} {u : Workers.State ω φ κ}
    (e : Effect thread s.stopper.state b u) (henter : ∀ w i, b = .enter w i → s.mayEnter w = true) (w : ω) :
    u.pc w = .out := by
  obtain hsame | ⟨-, henters, -⟩ := pc_step e w
  · exact hsame.trans (k.fresh hc w).1
  · obtain ⟨i, hi⟩ := henters (k.fresh hc w).1
    have hmay := henter w i hi
    simp [State.mayEnter, hc, (k.fresh hc w).2] at hmay

omit [DecidableEq φ] in
theorem runThread_frame {w : ω} (h : s.runThread thread w = some t) :
    (s.object w).pc ≠ .absent ∧ t.stopper = s.stopper ∧ t.creator = s.creator ∧ t.threadCount = s.threadCount ∧
      t.caller = s.caller ∧ t.name = s.name ∧ t.threads = s.threads := by
  unfold State.runThread at h
  simp only at h
  split at h
  · cases h
    exact ⟨by simp_all, rfl, rfl, rfl, rfl, rfl, rfl⟩
  · cases h
    exact ⟨by simp_all, rfl, rfl, rfl, rfl, rfl, rfl⟩
  · cases h
    exact ⟨by simp_all, rfl, rfl, rfl, rfl, rfl, rfl⟩
  · split at h
    · cases h
      exact ⟨by simp_all, rfl, rfl, rfl, rfl, rfl, rfl⟩
    · cases h
  · cases h
  · cases h
  · cases h

theorem Stops.step (k : Stops thread s) (h : Moves thread s a t) : Stops thread t := by
  have hthreads := k.threads.step h
  cases h with
  | @starts ws hc hlen =>
    have hstate : (if s.stopper.isStopping then { s.stopper with isStopping := false } else s.stopper).state =
        s.stopper.state := by
      split <;> rfl
    refine ⟨hthreads, hstate ▸ k.counted, hstate ▸ k.awaited, hstate ▸ k.executing, fun h => (by cases h),
      fun _ w => .inl ?_, fun h => (by cases h), fun h => (by cases h), fun _ h => (by cases h), k.nodup⟩
    show State.pc _ w = _
    rw [State.pc, hstate]
    exact (k.fresh hc w).1
  | stops hc =>
    exact ⟨hthreads, k.counted, k.awaited, k.executing, fun h => (by cases h), fun h => (by cases h),
      fun h => (by cases h), fun _ => rfl, fun _ h => (by cases h), k.nodup⟩
  | creates h => exact k.create h
  | @runs w t' h =>
    obtain ⟨hpresent, hstopper, hc, hcount, -, -, hsame⟩ := runThread_frame h
    refine ⟨hthreads, hstopper ▸ k.counted, hstopper ▸ k.awaited, hstopper ▸ k.executing, fun hf w' => ?_,
      fun hl w' => ?_, fun hs => hstopper ▸ k.stopping (hc ▸ hs), fun ha => hstopper ▸ k.autoStop (hc ▸ ha),
      fun left hj => hcount ▸ k.joining left (hc ▸ hj), hsame ▸ k.nodup⟩
    · exact absurd (k.fresh (hc ▸ hf) w).2 hpresent
    · rw [State.pc, hstopper]
      refine k.locked ?_ w'
      rwa [State.locked, hc] at hl
  | @works _ v b u h e hv ok =>
    refine ⟨hthreads, k.counted.step e, k.awaited.step e, k.executing.step e, fun hf w => ⟨?_, (k.fresh hf w).2⟩,
      fun hl => locked_step e (k.locked hl) (ok.locked hl).1, k.stopping, k.autoStop, k.joining, k.nodup⟩
    exact fresh_step k hf e ok.enters w

/-! ### What `start` records -/

/-- What the constructor of the scheduler writes stays. -/
theorem step_constants (h : Moves thread s a t) :
    t.caller = s.caller ∧ t.name = s.name ∧ t.threadCount = s.threadCount := by
  cases h with
  | starts | stops | works => exact ⟨rfl, rfl, rfl⟩
  | creates h =>
    obtain ⟨-, -, -, -, hcount, hcaller, hname⟩ := create_goes h
    exact ⟨hcaller, hname, hcount⟩
  | runs h =>
    obtain ⟨-, -, -, hcount, hcaller, hname, -⟩ := runThread_frame h
    exact ⟨hcaller, hname, hcount⟩

/-- What `start` returns with. -/
structure Recorded (thread : ω → Int) (s : State ω φ κ) : Prop where
  count : s.threads.length = s.threadCount
  nodup : s.threads.Nodup
  ids : s.threadIds = s.caller.toList.map thread ++ s.threads.map thread
  object : ∀ (i : Nat) w, s.threads[i]? = some w → s.caller ≠ some w ∧ (s.object w).id = thread w ∧
    (s.object w).name = s.name ++ "_" ++ toString i ∧ s.threadName w = (s.object w).name ∧ (s.object w).hasCb = false

omit [DecidableEq ω] [DecidableEq φ] in
theorem Stops.recorded (k : Stops thread s) (hc : s.creator = .started) : Recorded thread s := by
  have hkeeps : s.creator.keeps = true := by rw [hc]; rfl
  refine ⟨?_, k.nodup, k.threads.ids hkeeps, fun i w hw => ?_⟩
  · have hcount := k.threads.count hkeeps
    rw [hc] at hcount
    exact hcount
  · obtain ⟨hrank, hname⟩ := k.threads.listed i w hw
    obtain ⟨hid, hthread⟩ := k.threads.identified w (by omega)
    refine ⟨fun hcaller => ?_, hid, hname, hthread, k.threads.taken w (by omega)⟩
    rw [(k.threads.caller w hcaller).1] at hrank
    simp [ThreadPc.rank] at hrank

omit [DecidableEq φ] in
/-- A new thread can go on, and raises the semaphore at last. -/
theorem runThread_next (thread : ω → Int) {w : ω} (hpos : 1 ≤ (s.object w).pc.rank) (hlt : (s.object w).pc.rank < 4) :
    ∃ u, s.runThread thread w = some u ∧ u.creator = s.creator ∧
      (u.object w).pc.rank = (s.object w).pc.rank + 1 ∧
      (4 ≤ (u.object w).pc.rank → 0 < (u.object w).semaphore) := by
  have hself : ∀ {x : Thread}, (s.setObject w x).object w = x := Function.update_self ..
  cases hpc : (s.object w).pc with
  | absent => simp [hpc, ThreadPc.rank] at hpos
  | created | identified | taken =>
    unfold State.runThread
    simp only [hpc]
    refine ⟨_, rfl, rfl, ?_, ?_⟩ <;> simp [hself, ThreadPc.rank]
  | running | returned | joined =>
    rw [hpc] at hlt
    simp [ThreadPc.rank] at hlt

theorem creator_wakes (thread : ω → Int) {w : ω} {left : List ω} (hc : s.creator = .waiting w left)
    (hsem : 0 < (s.object w).semaphore) : ∃ t, s.create thread = some t ∧ t.creator = .spawning left := by
  unfold State.create
  rw [hc]
  exact ⟨_, if_pos hsem, rfl⟩

theorem wakes_up (thread : ω → Int) {w : ω} {left : List ω} (hc : s.creator = .waiting w left) (n : Nat)
    (hrank : (s.object w).pc.rank + n = 4) (hpos : 1 ≤ (s.object w).pc.rank)
    (hsem : 4 ≤ (s.object w).pc.rank → 0 < (s.object w).semaphore) :
    ∃ t, run (step thread) s (List.replicate n (.thread w) ++ [.creator]) = some t ∧ t.creator = .spawning left := by
  induction n generalizing s with
  | zero =>
    obtain ⟨t, ht, hct⟩ := creator_wakes thread hc (hsem (by omega))
    exact ⟨t, run_cons.mpr ⟨t, ht, rfl⟩, hct⟩
  | succ n ih =>
    obtain ⟨u, hu, hcu, hru, hsu⟩ := runThread_next thread hpos (by omega)
    obtain ⟨t, ht, hct⟩ := ih (hcu.trans hc) (by omega) (by omega) hsu
    exact ⟨t, run_cons.mpr ⟨u, hu, ht⟩, hct⟩

theorem stops_reachable {name : String} {threads : Nat} {caller : Option ω} {acts : List (Act ω φ κ)}
    (h : run (step thread) (init thread name threads caller) acts = some s) :
    Stops thread s ∧ s.caller = caller ∧ s.name = name ∧
      s.threadCount = if caller.isSome then threads - 1 else threads := by
  refine run_preserves (P := fun s : State ω φ κ => Stops thread s ∧ s.caller = caller ∧ s.name = name ∧
    s.threadCount = if caller.isSome then threads - 1 else threads) (fun s a t k h => ?_)
    ⟨init_stops thread name threads caller, rfl, rfl, rfl⟩ h
  obtain ⟨k, hcaller, hname, hcount⟩ := k
  obtain ⟨h₁, h₂, h₃⟩ := step_constants (step_moves h)
  exact ⟨k.step (step_moves h), h₁.trans hcaller, h₂.trans hname, h₃.trans hcount⟩

/-- **What `start` has when it returns is what its threads wrote**: as many as asked for, each
with its own id in `m_threadIds`. Until then no worker takes anything, and the semaphore is raised
for whoever waits for it. -/
theorem start_records (thread : ω → Int) (name : String) (threads : Nat) (caller : Option ω)
    (acts : List (Act ω φ κ)) (s : State ω φ κ)
    (h : run (step thread) (init thread name threads caller) acts = some s) :
    (s.creator = .started → Recorded thread s ∧ s.name = name ∧ s.caller = caller ∧
      s.threadCount = if caller.isSome then threads - 1 else threads) ∧
    (s.locked = true → ∀ w, s.pc w = .out ∨ s.pc w = .top) ∧
    ∀ w left, s.creator = .waiting w left → ∃ n ≤ 3, ∃ t,
      run (step thread) s (List.replicate n (.thread w) ++ [.creator]) = some t ∧ t.creator = .spawning left := by
  obtain ⟨k, hcaller, hname, hcount⟩ := stops_reachable h
  refine ⟨fun hc => ⟨k.recorded hc, hname, hcaller, hcount⟩, k.locked, fun w left hc => ?_⟩
  obtain ⟨hpos, -, -, hsem⟩ := k.threads.waiting w left hc
  by_cases hfour : (s.object w).pc.rank ≤ 3
  · obtain ⟨t, ht⟩ := wakes_up thread hc (4 - (s.object w).pc.rank) (by omega) hpos fun h => by omega
    exact ⟨_, by omega, t, ht⟩
  · have hup : 0 < (s.object w).semaphore := Nat.pos_of_ne_zero fun h => hfour (hsem.mp h)
    obtain ⟨t, ht, hct⟩ := creator_wakes thread hc hup
    exact ⟨0, by omega, t, run_cons.mpr ⟨t, ht, rfl⟩, hct⟩

/-! ### What `stop` waits for -/

/-- Outside the workers nobody calls `schedule` once `stop` has been called. -/
def Before (s : State ω φ κ) : Act ω φ κ → Prop
  | .schedule none _ => s.stopper.autoStop = false
  | _ => True

instance decidableBefore (s : State ω φ κ) (a : Act ω φ κ) : Decidable (Before s a) := by
  unfold Before
  split <;> infer_instance

structure Quits (thread : ω → Int) (s : State ω φ κ) : Prop where
  stops : Stops thread s
  drains : Drains s.stopper
  caller : s.threadCount = 0 → s.caller.isSome = true
  /-- Where there is the caller's thread only, it has run or there was nothing to run. -/
  drained : s.threadCount = 0 → s.creator.leaving = true →
    (∃ w, s.caller = some w ∧ s.pc w = .exited) ∨ s.stopper.state.fibers = []

omit [DecidableEq ω] [DecidableEq φ] in
theorem Drains.congr {u v : Stopper ω φ κ} (k : Drains u) (hstate : v.state = u.state)
    (hauto : v.autoStop = u.autoStop) : Drains v := by
  cases u
  cases v
  cases hstate
  cases hauto
  exact ⟨k.ended, k.exited, k.pinned⟩

omit [DecidableEq ω] [DecidableEq φ] in
/-- Who is not in a thread of `m_threads` is not in `run`. -/
theorem Threads.atRest (k : Threads thread s) (hroot : s.creator ≠ .inRoot) (hthreads : s.threads = [])
    (hwait : ∀ w left, s.creator ≠ .waiting w left) (hjoin : ∀ left, s.creator = .joining left → left = []) (w : ω) :
    s.pc w = .out ∨ s.pc w = .exited := by
  by_cases hcaller : s.caller = some w
  · have hrest : s.rootAtRest w ≠ false := fun h => hroot ((k.caller w hcaller).2 h)
    unfold State.rootAtRest at hrest
    split at hrest
    · exact .inl ‹_›
    · exact .inr ‹_›
    · exact absurd rfl hrest
  · by_cases hout : s.pc w = .out
    · exact .inl hout
    · have hfour := k.entered w hcaller hout
      by_cases hfive : 5 ≤ (s.object w).pc.rank
      · exact .inr (k.finished w hfive)
      · obtain hw | ⟨left, hl⟩ | ⟨left, hl, hw⟩ := k.running w hfour (by omega)
        · rw [hthreads] at hw
          cases hw
        · exact absurd hl (hwait w left)
        · rw [hjoin left hl] at hw
          cases hw

omit [DecidableEq ω] [DecidableEq φ] in
theorem Stops.alone (k : Stops thread s) (hcount : s.threadCount = 0) (hleaving : s.creator.leaving = true) (w : ω) :
    s.pc w = .out ∨ s.pc w = .exited := by
  refine k.threads.atRest (fun h => by rw [h] at hleaving; cases hleaving) ?_
    (fun w left h => by rw [h] at hleaving; cases hleaving) (fun left h => ?_) w
  · cases hkeeps : s.creator.keeps with
    | false => exact k.threads.empty hkeeps
    | true =>
      have := k.threads.count hkeeps
      exact List.eq_nil_of_length_eq_zero (by omega)
  · have := k.joining left h
    exact List.eq_nil_of_length_eq_zero (by omega)

/-- Where nobody is in a fiber, `m_fibers` stays empty. -/
theorem empty_step {b : Workers.Act ω φ κ} {u v : Workers.State ω φ κ} (e : Effect thread u b v)
    (hrest : ∀ w, u.pc w = .out ∨ u.pc w = .exited) (hb : ∀ nodes, b ≠ .schedule nodes)
    (hempty : u.fibers = []) : v.fibers = [] := by
  have hno : ∀ {w : ω} {pc : Pc φ κ}, u.pc w = pc → pc ≠ .out → pc ≠ .exited → False := by
    intro w pc hpc h₁ h₂
    exact (hrest w).elim (fun h => h₁ (hpc.symm.trans h)) fun h => h₂ (hpc.symm.trans h)
  cases e with
  | fails | creates | enters => exact hempty
  | @schedules nodes => exact absurd rfl (hb nodes)
  | scans hpc | runs hpc | resets hpc | makes hpc | discards hpc | exits hpc | idles hpc | rewrites hpc | backs hpc
  | readies hpc | ends hpc | empties hpc | checks hpc | holds hpc => exact (hno hpc (by simp) (by simp)).elim

theorem Quits.create (k : Quits thread s) (h : s.create thread = some t) :
    t.threadCount = 0 → t.creator.leaving = true →
      (∃ w, t.caller = some w ∧ t.pc w = .exited) ∨ t.stopper.state.fibers = [] := by
  obtain ⟨g, hstate, -, -, hcount, hcaller, -⟩ := create_goes h
  have hpc : ∀ w, t.pc w = s.pc w := fun w => by rw [State.pc, hstate]; rfl
  rw [hcount, hcaller, hstate]
  simp only [hpc]
  intro hzero hleaving
  have hstopping : s.stopper.stopping = true → s.stopper.state.fibers = [] := by
    intro hstop
    simp only [Stopper.stopping, Bool.and_eq_true, List.isEmpty_iff] at hstop
    exact hstop.1.2
  generalize t.creator = c, t.threads = ws at g hleaving
  cases g with
  | started | waiting | spawning | marked | stopped | inRoot => cases hleaving
  | early hc hstop => exact .inr (hstopping hstop)
  | passed hc hstop => exact .inr (hstopping (hstop (k.caller hzero)))
  | exited hc hw hex => exact .inl ⟨_, hw, hex⟩
  | joining hc | joined hc | returned hc => exact k.drained hzero (by rw [hc]; rfl)

theorem Quits.step (k : Quits thread s) (h : Moves thread s a t) (hb : Before s a) : Quits thread t := by
  obtain ⟨hcaller, -, hcount⟩ := step_constants h
  have hsome : t.threadCount = 0 → t.caller.isSome = true := by
    rw [hcount, hcaller]
    exact k.caller
  have hstops := k.stops.step h
  cases h with
  | starts hc hlen =>
    refine ⟨hstops, Drains.congr k.drains ?_ ?_, hsome, fun _ h => by cases h⟩ <;> split <;> rfl
  | stops hc =>
    have hstep : Stopper.step thread s.stopper .autoStop = some { s.stopper with autoStop := true } := rfl
    exact ⟨hstops, k.drains.step k.stops.executing k.stops.awaited hstep (fun _ h => by cases h), hsome,
      fun _ h => by cases h⟩
  | creates h =>
    obtain ⟨-, hstate, hauto, -⟩ := create_goes h
    exact ⟨hstops, Drains.congr k.drains hstate hauto, hsome, k.create h⟩
  | runs h =>
    obtain ⟨-, hstopper, hc, hcount, hcaller, -⟩ := runThread_frame h
    refine ⟨hstops, hstopper ▸ k.drains, hsome, ?_⟩
    rw [hcount, hc, hcaller, hstopper]
    simp only [State.pc, hstopper]
    exact k.drained
  | @works _ v b u h e hv ok =>
    have hschedule : ∀ nodes, b = .schedule nodes →
        s.stopper.autoStop = false ∨ ∃ w st kd f, s.pc w = .inside st kd f := by
      intro nodes hn
      obtain ⟨who, rfl, hwho⟩ := ok.schedules nodes hn
      cases who with
      | none => exact .inl hb
      | some w =>
        obtain ⟨kd, f, hin⟩ := hwho w rfl
        exact .inr ⟨w, _, kd, f, hin⟩
    refine ⟨hstops, k.drains.step k.stops.executing k.stops.awaited h fun nodes hn => hschedule nodes (hv nodes hn),
      hsome, fun hzero hleaving => ?_⟩
    have hrest := k.stops.alone hzero hleaving
    obtain ⟨w, hw, hex⟩ | hempty := k.drained hzero hleaving
    · refine .inl ⟨w, hw, ?_⟩
      obtain hsame | ⟨hnot, -⟩ := pc_step e w
      · exact hsame.trans hex
      · exact absurd hex hnot
    · refine .inr (empty_step e hrest (fun nodes hn => ?_) hempty)
      obtain hauto | ⟨w, st, kd, f, hin⟩ := hschedule nodes hn
      · have : s.creator.autoStop = true := by
          cases hc : s.creator <;> rw [hc] at hleaving <;> first | rfl | cases hleaving
        cases hauto.symm.trans (k.stops.autoStop this)
      · obtain h | h := hrest w
        · cases hin.symm.trans h
        · cases hin.symm.trans h

/-- What `stop` returns with. -/
structure Drained (s : State ω φ κ) : Prop where
  flags : s.stopper.autoStop = true ∧ s.stopper.isStopping = true
  out : ∀ w, s.pc w = .out ∨ s.pc w = .exited
  joined : ∀ w, (s.object w).pc = .absent ∨ (s.object w).pc = .joined
  counters : s.stopper.state.activeThreadCount = 0 ∧ s.stopper.state.idleThreadCount = 0
  exec : ∀ f, s.stopper.state.isExec f = false
  /-- Whatever is left is pinned to a thread. -/
  pinned : ∀ it ∈ s.stopper.state.fibers, it.thread ≠ -1
  ready : ∀ f, s.stopper.state.Ready f → ∃ it ∈ s.stopper.state.fibers, it.fiber = some f

omit [DecidableEq ω] [DecidableEq φ] in
/-- Every `Thread` that was made is joined. -/
theorem Threads.allJoined (k : Threads thread s) (hc : s.creator = .returned) (w : ω) :
    (s.object w).pc = .absent ∨ (s.object w).pc = .joined := by
  have hempty := k.empty (by rw [hc]; rfl)
  have hmaking : ¬ (1 ≤ (s.object w).pc.rank ∧ (s.object w).pc.rank ≤ 3) := by
    rintro ⟨h₁, h₂⟩
    obtain ⟨left, hl⟩ := k.making w h₁ h₂
    cases hc.symm.trans hl
  have hrunning : ¬ (4 ≤ (s.object w).pc.rank ∧ (s.object w).pc.rank ≤ 5) := by
    rintro ⟨h₁, h₂⟩
    obtain hw | ⟨left, hl⟩ | ⟨left, hl, -⟩ := k.running w h₁ h₂
    · rw [hempty] at hw
      cases hw
    · cases hc.symm.trans hl
    · cases hc.symm.trans hl
  cases hpc : (s.object w).pc with
  | absent => exact .inl rfl
  | joined => exact .inr rfl
  | created | identified | taken =>
    refine absurd ?_ hmaking
    rw [hpc]
    simp [ThreadPc.rank]
  | running | returned =>
    refine absurd ?_ hrunning
    rw [hpc]
    simp [ThreadPc.rank]

omit [DecidableEq ω] [DecidableEq φ] in
theorem Quits.drains_all (k : Quits thread s) (hc : s.creator = .returned) : Drained s := by
  have hempty := k.stops.threads.empty (by rw [hc]; rfl)
  have hrest := k.stops.threads.atRest (by rw [hc]; simp) hempty (by rw [hc]; simp) (by rw [hc]; simp)
  have hnobody : ∀ {w : ω} {pc : Pc φ κ}, s.stopper.state.pc w = pc → pc ≠ .out → pc ≠ .exited → False := by
    intro w pc hpc h₁ h₂
    exact (hrest w).elim (fun h => h₁ (hpc.symm.trans h)) fun h => h₂ (hpc.symm.trans h)
  have hpcs : ∀ {p : Pc φ κ → Bool}, p .out = false → p .exited = false → ∀ w, p (s.stopper.state.pc w) = false := by
    intro p h₁ h₂ w
    obtain h | h := hrest w
    · rw [show s.stopper.state.pc w = _ from h, h₁]
    · rw [show s.stopper.state.pc w = _ from h, h₂]
  have hdeserted : s.stopper.state.Deserted := fun w => (hrest w).imp id .inl
  refine ⟨⟨k.stops.autoStop (by rw [hc]; rfl), k.stops.stopping (by rw [hc]; rfl)⟩, hrest,
    k.stops.threads.allJoined hc, ⟨?_, ?_⟩, fun f => ?_, ?_, fun f hf => ?_⟩
  · exact k.stops.counted.active.unique (counts_none (hpcs rfl rfl))
  · exact k.stops.counted.idle.unique (counts_none (hpcs rfl rfl))
  · rw [Bool.eq_false_iff]
    intro hexec
    obtain ⟨w, st, kd, hin⟩ := k.stops.executing.exec f hexec
    exact hnobody hin (by simp) (by simp)
  · have hpinned : (∃ w, s.pc w = .exited) → ∀ it ∈ s.stopper.state.fibers, it.thread ≠ -1 :=
      fun ⟨w, hw⟩ => k.drains.pinned ⟨w, .inl hw⟩ hdeserted
    by_cases hzero : s.threadCount = 0
    · obtain ⟨w, -, hw⟩ | hnone := k.drained hzero (by rw [hc]; rfl)
      · exact hpinned ⟨w, hw⟩
      · rw [hnone]
        exact fun _ h => by cases h
    · -- one of the threads of the pool has been joined
      obtain ⟨w, hw⟩ := k.stops.threads.made (by rw [hc]; rfl) (by rw [hc]; simp) (by omega)
      refine hpinned ⟨w, k.stops.threads.finished w ?_⟩
      obtain habsent | hjoined := k.stops.threads.allJoined hc w
      · rw [habsent] at hw
        simp [ThreadPc.rank] at hw
      · rw [hjoined]
        simp [ThreadPc.rank]
  · refine (k.stops.awaited.ready f hf).resolve_right ?_
    rintro ⟨w, hheld⟩
    obtain h | h := hrest w <;> rw [show s.stopper.state.pc w = _ from h] at hheld <;> cases hheld

/-- **`stop` returns with every thread joined and every worker out**, both counters at zero, no
fiber in EXEC, and nothing in `m_fibers` but what is pinned to a thread, whatever the threads
did meanwhile. -/
theorem stop_drains (thread : ω → Int) (name : String) (threads : Nat) (caller : Option ω)
    (hpos : 0 < threads) (acts : List (Act ω φ κ)) (s : State ω φ κ)
    (hm : Meets (step thread) Before (init thread name threads caller) acts)
    (h : run (step thread) (init thread name threads caller) acts = some s) (hc : s.creator = .returned) :
    Drained s := by
  have hcaller : (init thread name threads caller : State ω φ κ).threadCount = 0 →
      (init thread name threads caller : State ω φ κ).caller.isSome = true := by
    intro hzero
    by_contra hno
    have hno : ¬ caller.isSome = true := hno
    have hzero : (if caller.isSome then threads - 1 else threads) = 0 := hzero
    rw [if_neg hno] at hzero
    omega
  have hinit : Quits thread (init thread name threads caller : State ω φ κ) :=
    ⟨init_stops thread name threads caller, init_drains, hcaller, fun _ h => by cases h⟩
  exact (run_invariant (fun s a t k hb h => k.step (step_moves h) hb) hinit hm h).drains_all hc

end

/-- A scheduler of two threads that uses its caller's, with a callback queued before `start`. -/
def startActs : List (Act (Fin 2) Nat Nat) :=
  [.schedule none [{ cb := some 7 }], .start [1], .creator, .thread 1, .thread 1, .thread 1, .creator, .creator]

/-- Worker 1 is in the callback when `stop` is called; the caller's thread runs `m_rootFiber`. -/
def stopActs : List (Act (Fin 2) Nat Nat) :=
  let works (w : Fin 2) (n : Nat) : List (Act (Fin 2) Nat Nat) := List.replicate n (.worker (.work w 20))
  startActs ++ [.worker (.enter 1 11)] ++ works 1 4 ++
    [.stop, .creator, .creator, .worker (.enter 0 10), .worker (.finish 1 false)] ++ works 1 7 ++ [.idle 1] ++
    works 1 5 ++ works 0 4 ++ [.idle 0] ++ works 0 5 ++ [.thread 1, .creator, .creator, .creator, .creator]

theorem start_records_sample : ∃ s : State (Fin 2) Nat Nat,
    run (step fun w => w.val) (init (fun w => w.val) "w" 2 (some 0)) startActs = some s ∧
      Recorded (fun w => w.val) s ∧ s.threadIds = [0, 1] :=
  ⟨_, rfl, ((start_records (fun w : Fin 2 => w.val) "w" 2 (some 0) startActs _ rfl).1 rfl).1, rfl⟩

theorem stop_drains_sample : ∃ s : State (Fin 2) Nat Nat,
    run (step fun w => w.val) (init (fun w => w.val) "w" 2 (some 0)) stopActs = some s ∧ Drained s :=
  ⟨_, rfl, stop_drains (fun w : Fin 2 => w.val) "w" 2 (some 0) (by decide) stopActs _ (by decide) rfl rfl⟩

end ShioSylar.Scheduler.Lifecycle
