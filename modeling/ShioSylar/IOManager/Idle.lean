import ShioSylar.IOManager.Calls
import ShioSylar.Scheduler.Stopping
import ShioSylar.Timer.Deadline

/-! The workers of an IOManager, its timers and its event table in one run (`IOManager::idle`,
`tickle`, `stopping`, `onTimerInsertedAtFront`).

The scheduler, the timer manager and the table are those of their own modules; here they run
on the same threads. A thread is a worker or any other; user code on it, which on a worker
is the fiber of a task, calls `schedule`, the timers and the table at any time. What such a
call does under one lock is one step; a call of `tickle` that follows is its own two steps,
the read of `m_idleThreadCount` and the `write`, and until they are done the thread does
nothing else. `stopping(timeout)` is three steps, one a read. `epoll_wait` may return at any time, with or without the
tickle event. Descriptors that are watched report anything.

The callback of a timer is copied out by `listExpiredCb`; the copy is told by the timer and
the place of that extraction in the history. `holders`, `timerSince` and `eventSince` say what
has happened while a thread was in `stopping(timeout)`. -/
namespace ShioSylar.IOManager.Idle
open Scheduler Lib
open TimerManager (U64 Life)

/-- A callback in `m_fibers`: a user's, or a copy of a timer's. -/
inductive Job (ι κ : Type) where
  | task (cb : κ)
  | timer (t : ι) (n : Nat) (cb : κ)

/-- What a thread has left of a call of `tickle`. -/
inductive Tickle where
  | no
  /-- Before `hasIdleThreads()`. -/
  | check
  /-- Before `write(m_tickleFds[1], "T", 1)`. -/
  | write
  deriving DecidableEq

/-- The next read of `stopping(timeout)`: `getNextTimer`, `m_pendingEventCount`, and
`Scheduler::stopping`. -/
inductive Asking where
  | timers | events | tasks
  deriving DecidableEq

/-- Where the `idle_fiber` of a worker is in `idle`. -/
inductive Stage (φ ι κ : Type) where
  | asking (q : Asking)
  /-- In `epoll_wait`. -/
  | wait
  /-- Before `listExpiredCb`; the tickle event is among the events or not. -/
  | woken (tickled : Bool)
  /-- Before `schedule(cbs.begin(), cbs.end())`. -/
  | expired (tickled : Bool) (cbs : List (FiberAndThread φ (Job ι κ)))
  /-- In the loop over the events, with the tickle event left or not. -/
  | reports (tickled : Bool)

structure State (ω τ φ ι κ : Type) where
  run : Workers.State ω φ (Job ι κ)
  life : Life ι κ
  table : IOManager.State Unit φ κ
  isStopping : Bool := true
  autoStop : Bool := false
  calls : ω ⊕ τ → Tickle := fun _ => .no
  /-- The bytes in `m_tickleFds`. -/
  pipe : Nat := 0
  idle : ω → Stage φ ι κ := fun _ => .asking .timers
  /-- Where another thread is in `stopping(timeout)`. -/
  asking : τ → Option Asking := fun _ => none
  /-- The copies that workers have started, oldest first. -/
  started : List (ι × Nat) := []
  /-- The workers between `listExpiredCb` and `schedule`. -/
  holders : List ω := []
  /-- Since the thread read `getNextTimer`, `m_timers` has not been empty throughout, or there
  were holders when it did. -/
  timerSince : ω ⊕ τ → Bool := fun _ => false
  /-- Since the thread read `m_pendingEventCount`, it has not been zero throughout. -/
  eventSince : ω ⊕ τ → Bool := fun _ => false

inductive Act (ω τ φ ι κ : Type) where
  /-- A step of `run`, or a fiber is created, yields or ends. -/
  | worker (a : Workers.Act ω φ κ)
  | schedule (x : ω ⊕ τ) (nodes : List (FiberAndThread φ κ))
  | tickle (x : ω ⊕ τ)
  | timer (x : ω ⊕ τ) (op : TimerManager.Op ι κ)
  | table (x : ω ⊕ τ) (op : IOManager.Op Unit φ κ)
  /-- `m_stopping = false` of `start`. -/
  | start
  /-- `m_autoStop = true` of `stop`. -/
  | autoStop
  /-- `m_stopping = true` of `stop`. -/
  | stop
  /-- Another thread comes to a test of `stopping` in `stop`. -/
  | ask (y : τ)
  /-- The next read of `stopping(timeout)`. -/
  | read (x : ω ⊕ τ) (now : U64)
  /-- `epoll_wait` returns. -/
  | wake (w : ω) (tickled : Bool)
  | expire (w : ω) (now : U64) (tmp : ι)
  /-- `schedule` of the callbacks. -/
  | put (w : ω)
  | report (w : ω) (fd : Nat) (r : Report) (ok : Bool)
  /-- The tickle event: the pipe is read until it is empty. -/
  | drain (w : ω)
  | swapOut (w : ω)

/-- A node with another kind of callback. -/
def mapNode {φ κ κ' : Type} (g : κ → κ') (ft : FiberAndThread φ κ) : FiberAndThread φ κ' :=
  { fiber := ft.fiber, cb := ft.cb.map g, thread := ft.thread }

def mapAct {ω φ κ κ' : Type} (g : κ → κ') : Workers.Act ω φ κ → Workers.Act ω φ κ'
  | .enter w i => .enter w i
  | .create f cb => .create f (g cb)
  | .schedule nodes => .schedule (nodes.map (mapNode g))
  | .work w a => .work w a
  | .yieldToHold w => .yieldToHold w
  | .yieldToReady w => .yieldToReady w
  | .finish w threw => .finish w threw

section
variable {ω τ φ ι κ : Type}

namespace State

def init (now : U64) : State ω τ φ ι κ :=
  { run := Workers.start, life := Life.start now, table := IOManager.State.init }

/-- `Scheduler::stopping`. -/
def stopping (s : State ω τ φ ι κ) : Bool :=
  s.autoStop && s.isStopping && s.run.fibers.isEmpty && s.run.activeThreadCount = 0

/-- User code runs on the thread. -/
def user (s : State ω τ φ ι κ) : ω ⊕ τ → Bool
  | .inl w =>
    match s.run.pc w with
    | .inside .running k _ => k ≠ .idle
    | _ => false
  | .inr y => (s.asking y).isNone

/-- The worker runs its `idle_fiber`. -/
def inIdle (s : State ω τ φ ι κ) (w : ω) : Bool :=
  match s.run.pc w with
  | .inside .running .idle _ => true
  | _ => false

/-- What is seen of timers and events after a step. -/
def note (s : State ω τ φ ι κ) : State ω τ φ ι κ :=
  { s with
    timerSince := fun x => s.timerSince x || !s.life.manager.timers.isEmpty
    eventSince := fun x => s.eventSince x || s.table.pendingEventCount ≠ 0 }

variable [DecidableEq ω] [DecidableEq τ] [DecidableEq φ] [LinearOrder ι] (thread : ω → Int)

/-- A thread puts nodes into `m_fibers` and comes to the call of `tickle`. -/
def push (s : State ω τ φ ι κ) (x : ω ⊕ τ) (nodes : List (FiberAndThread φ (Job ι κ))) :
    Option (State ω τ φ ι κ) :=
  (Workers.step thread s.run (.schedule nodes)).map fun r => { s with
    run := r
    calls := if needTickle s.run.fibers nodes then Function.update s.calls x .check else s.calls }

/-- The worker whose step of `run` comes to a call of `tickle`. -/
def tickles (s : State ω τ φ ι κ) : Workers.Act ω φ (Job ι κ) → Option ω
  | .work w _ =>
    match s.run.pc w with
    | .top => if (fetch (thread w) s.run.isExec s.run.fibers).any (·.tickleMe) then some w else none
    | .inside .check k f =>
      if (s.run.fiber f).any (·.state = .ready) ∧ k ≠ .idle ∧
        needTickle s.run.fibers [({ fiber := some f } : FiberAndThread φ (Job ι κ))] then some w else none
    | _ => none
  | _ => none

/-- The copy of a timer's callback that the step starts. -/
def starts (s : State ω τ φ ι κ) : Workers.Act ω φ (Job ι κ) → List (ι × Nat)
  | .work w _ =>
    match s.run.pc w with
    | .inside .entered .callback f =>
      match (s.run.fiber f).bind (·.cb) with
      | some (.timer t n _) => [(t, n)]
      | _ => []
    | _ => []
  | _ => []

/-- The step goes into an `idle_fiber`, which is then before `stopping(timeout)`. -/
def begins (s : State ω τ φ ι κ) : Workers.Act ω φ (Job ι κ) → ω → Stage φ ι κ
  | .work w _ =>
    match s.run.pc w with
    | .inside .entered .idle _ => Function.update s.idle w (.asking .timers)
    | _ => s.idle
  | _ => s.idle

/-- A step of the scheduler. -/
def worker (s : State ω τ φ ι κ) (a : Workers.Act ω φ (Job ι κ)) : Option (State ω τ φ ι κ) :=
  (Workers.step thread s.run a).map fun r => { s with
    run := r
    calls := match s.tickles thread a with
      | some w => Function.update s.calls (.inl w) .check
      | none => s.calls
    idle := s.begins a
    started := s.started ++ s.starts a }

/-- A call on the table, and the nodes it triggers. -/
def touch (s : State ω τ φ ι κ) (x : ω ⊕ τ) (op : IOManager.Op Unit φ κ) : Option (State ω τ φ ι κ) :=
  match exec s.table op with
  | .error _ => none
  | .ok (_, u) =>
    (({ s with table := { u with fibers := fun _ => [] } } : State ω τ φ ι κ).push thread x
      ((u.fibers ()).map (mapNode .task))).map note

/-- The callbacks that `listExpiredCb` puts into `cbs`, as nodes. -/
def copies (s : State ω τ φ ι κ) (now : U64) (tmp : ι) : List (FiberAndThread φ (Job ι κ)) :=
  (((s.life.manager.takeExpired now tmp).1.zip (s.life.manager.listExpiredCb now tmp []).1).zipIdx
    s.life.history.length).map fun e => (FiberAndThread.ofCbPtr (e.1.2.map (.timer e.1.1 e.2)) (-1)).1

/-- One read of `stopping(timeout)`: the next one, or the result. -/
def look (s : State ω τ φ ι κ) (x : ω ⊕ τ) (now : U64) : Asking → (Asking ⊕ Bool) × State ω τ φ ι κ
  | .timers =>
    let r := s.life.manager.getNextTimer now
    let t := { s with
      life := { s.life with manager := r.2 }
      timerSince := Function.update s.timerSince x (!s.life.manager.timers.isEmpty || !s.holders.isEmpty) }
    (if r.1 = BitVec.allOnes 64 then .inl .events else .inr false, t)
  | .events =>
    (if s.table.pendingEventCount = 0 then .inl .tasks else .inr false,
      { s with eventSince := Function.update s.eventSince x false })
  | .tasks => (.inr s.stopping, s)

/-- A thread is before the next read, or out of `stopping(timeout)`, from where a worker goes to
`epoll_wait`. -/
def setAsk (s : State ω τ φ ι κ) : ω ⊕ τ → Option Asking → State ω τ φ ι κ
  | .inl w, some q => { s with idle := Function.update s.idle w (.asking q) }
  | .inl w, none => { s with idle := Function.update s.idle w .wait }
  | .inr y, q => { s with asking := Function.update s.asking y q }

/-- A thread goes on in `stopping(timeout)`; where it is true, a worker leaves `idle`. -/
def goOn (s : State ω τ φ ι κ) (x : ω ⊕ τ) : Asking ⊕ Bool → Option (State ω τ φ ι κ)
  | .inl q => some (s.setAsk x (some q))
  | .inr false => some (s.setAsk x none)
  | .inr true =>
    match x with
    | .inl w => s.worker thread (.finish w false)
    | .inr _ => some (s.setAsk x none)

end State

/-- The calls of user code on timers. -/
def userOp : TimerManager.Op ι κ → Bool
  | .addTimer .. | .cancel .. | .refresh .. | .reset .. => true
  | .getNextTimer .. | .listExpiredCb .. => false

/-- The calls of user code on the table. -/
def userCall : IOManager.Op Unit φ κ → Bool
  | .dispatch .. => false
  | _ => true

/-- The steps of a worker outside `idle` that wait for its call of `tickle`. -/
def State.allows (s : State ω τ φ ι κ) (a : Workers.Act ω φ (Job ι κ)) : Bool :=
  match a with
  | .schedule _ => false
  | _ => (a.mover.all fun w => s.calls (.inl w) = .no) && !a.leavesIdle s.run

/-- The thread whose read is next, and which. -/
def State.asks (s : State ω τ φ ι κ) : ω ⊕ τ → Option Asking
  | .inl w =>
    match s.inIdle w, s.idle w with
    | true, .asking q => some q
    | _, _ => none
  | .inr y => s.asking y

variable [DecidableEq ω] [DecidableEq τ] [DecidableEq φ] [LinearOrder ι]

/-- A step of a process that has not failed. -/
def act (thread : ω → Int) (s : State ω τ φ ι κ) : Act ω τ φ ι κ → Option (State ω τ φ ι κ)
  | .worker a => if s.allows (mapAct .task a) then s.worker thread (mapAct .task a) else none
  | .schedule x nodes =>
    if s.user x ∧ s.calls x = .no then s.push thread x (nodes.map (mapNode .task)) else none
  | .tickle x =>
    match s.calls x with
    | .no => none
    | .check => some { s with
        calls := Function.update s.calls x (if 0 < s.run.idleThreadCount then .write else .no) }
    | .write => some { s with calls := Function.update s.calls x .no, pipe := s.pipe + 1 }
  | .timer x op =>
    if s.user x ∧ s.calls x = .no ∧ userOp op then
      (TimerManager.step s.life op).map fun l => State.note { s with
        life := l
        calls := if s.life.manager.tells op then Function.update s.calls x .check else s.calls }
    else none
  | .table x op => if s.user x ∧ s.calls x = .no ∧ userCall op then s.touch thread x op else none
  | .start => some { s with isStopping := false }
  | .autoStop => some { s with autoStop := true }
  | .stop => some { s with isStopping := true }
  | .ask y =>
    if s.user (.inr y) ∧ s.calls (.inr y) = .no then
      some { s with asking := Function.update s.asking y (some .timers) }
    else none
  | .read x now =>
    match s.asks x, s.calls x with
    | some q, .no => (s.look x now q).2.goOn thread x (s.look x now q).1
    | _, _ => none
  | .wake w tickled =>
    match s.inIdle w, s.idle w with
    | true, .wait =>
      if tickled → 0 < s.pipe then some { s with idle := Function.update s.idle w (.woken tickled) } else none
    | _, _ => none
  | .expire w now tmp =>
    match s.inIdle w, s.idle w with
    | true, .woken tickled =>
      (TimerManager.step s.life (.listExpiredCb now tmp)).map fun l =>
        let cbs := s.copies now tmp
        State.note { s with
          life := l
          idle := Function.update s.idle w (if cbs.isEmpty then .reports tickled else .expired tickled cbs)
          holders := if cbs.isEmpty then s.holders else w :: s.holders }
    | _, _ => none
  | .put w =>
    match s.inIdle w, s.idle w with
    | true, .expired tickled cbs =>
      (s.push thread (.inl w) cbs).map fun s => { s with
        idle := Function.update s.idle w (.reports tickled)
        holders := s.holders.filter (· ≠ w) }
    | _, _ => none
  | .report w fd r ok =>
    match s.inIdle w, s.idle w, s.calls (.inl w) with
    | true, .reports _, .no => s.touch thread (.inl w) (.dispatch fd r ok)
    | _, _, _ => none
  | .drain w =>
    match s.inIdle w, s.idle w, s.calls (.inl w) with
    | true, .reports true, .no => some { s with
        pipe := 0
        idle := Function.update s.idle w (.reports false) }
    | _, _, _ => none
  | .swapOut w =>
    match s.inIdle w, s.idle w, s.calls (.inl w) with
    | true, .reports false, .no => s.worker thread (.yieldToHold w)
    | _, _, _ => none

def step (thread : ω → Int) (s : State ω τ φ ι κ) (a : Act ω τ φ ι κ) : Option (State ω τ φ ι κ) :=
  if s.run.fault = none then act thread s a else none

/-! ### What a step comes to -/

variable {thread : ω → Int} {s t : State ω τ φ ι κ}

omit [LinearOrder ι] in
theorem push_spec {x : ω ⊕ τ} {nodes : List (FiberAndThread φ (Job ι κ))}
    (h : s.push thread x nodes = some t) :
    Workers.Effect thread s.run (.schedule nodes) (s.run.schedule nodes) ∧ t = { s with
      run := s.run.schedule nodes
      calls := if needTickle s.run.fibers nodes then Function.update s.calls x .check else s.calls } := by
  obtain ⟨r, hr, rfl⟩ := Option.map_eq_some_iff.mp h
  have heq : r = s.run.schedule nodes := (Option.some.inj (Option.ite_none_right_eq_some.mp hr).2).symm
  rw [← heq]
  exact ⟨Workers.step_effect hr, rfl⟩

omit [LinearOrder ι] in
theorem touch_spec {x : ω ⊕ τ} {op : IOManager.Op Unit φ κ} (h : s.touch thread x op = some t) :
    ∃ a u nodes, exec s.table op = .ok (a, u) ∧
      Workers.Effect thread s.run (.schedule nodes) (s.run.schedule nodes) ∧ t = State.note { s with
        table := { u with fibers := fun _ => [] }
        run := s.run.schedule nodes
        calls := if needTickle s.run.fibers nodes then Function.update s.calls x .check else s.calls } ∧
      nodes = (u.fibers ()).map (mapNode .task) := by
  unfold State.touch at h
  split at h
  · cases h
  · rename_i a u hu
    obtain ⟨v, hv, rfl⟩ := Option.map_eq_some_iff.mp h
    obtain ⟨he, rfl⟩ := push_spec hv
    exact ⟨a, u, _, hu, he, rfl, rfl⟩

omit [LinearOrder ι] in
theorem worker_spec {a : Workers.Act ω φ (Job ι κ)} (h : s.worker thread a = some t) :
    Workers.Effect thread s.run a t.run ∧ t = { s with
      run := t.run
      calls := match s.tickles thread a with
        | some w => Function.update s.calls (.inl w) .check
        | none => s.calls
      idle := s.begins a
      started := s.started ++ s.starts a } := by
  obtain ⟨r, hr, rfl⟩ := Option.map_eq_some_iff.mp h
  exact ⟨Workers.step_effect hr, rfl⟩

/-- The branches of a step. -/
inductive Effect (thread : ω → Int) (s : State ω τ φ ι κ) : Act ω τ φ ι κ → State ω τ φ ι κ → Prop
  | works {a b r} (hb : b = mapAct .task a) (hok : s.allows b = true)
      (he : Workers.Effect thread s.run b r) :
      Effect thread s (.worker a) { s with
        run := r
        calls := match s.tickles thread b with
          | some w => Function.update s.calls (.inl w) .check
          | none => s.calls
        idle := s.begins b
        started := s.started ++ s.starts b }
  /-- An `idle_fiber` ends or is swapped out. -/
  | leaves {a b w r} (hidle : s.inIdle w = true) (hmover : b.mover = some w)
      (hnot : ∀ g, b ≠ .work w g) (he : Workers.Effect thread s.run b r)
      (hread : ∀ x now, a = .read x now → x = .inl w ∧ s.asks x = some .tasks ∧ s.stopping = true) :
      Effect thread s a { s with run := r }
  | pushes {x nodes nodes'} (hn : nodes' = nodes.map (mapNode .task))
      (he : Workers.Effect thread s.run (.schedule nodes') (s.run.schedule nodes')) :
      Effect thread s (.schedule x nodes) { s with
        run := s.run.schedule nodes'
        calls := if needTickle s.run.fibers nodes' then Function.update s.calls x .check else s.calls }
  | checks {x} (hx : s.calls x = .check) :
      Effect thread s (.tickle x) { s with
        calls := Function.update s.calls x (if 0 < s.run.idleThreadCount then .write else .no) }
  | writes {x} (hx : s.calls x = .write) :
      Effect thread s (.tickle x) { s with calls := Function.update s.calls x .no, pipe := s.pipe + 1 }
  | times {x op l} (hop : userOp op = true) (hl : TimerManager.step s.life op = some l) :
      Effect thread s (.timer x op) (State.note { s with
        life := l
        calls := if s.life.manager.tells op then Function.update s.calls x .check else s.calls })
  | touches {a x op ans u nodes} (hop : exec s.table op = .ok (ans, u))
      (hn : nodes = (u.fibers ()).map (mapNode .task))
      (he : Workers.Effect thread s.run (.schedule nodes) (s.run.schedule nodes))
      (ha : a = .table x op ∨ ∃ w fd r ok, x = .inl w ∧ s.inIdle w = true ∧
        (∃ b, s.idle w = .reports b) ∧ a = .report w fd r ok) :
      Effect thread s a (State.note { s with
        table := { u with fibers := fun _ => [] }
        run := s.run.schedule nodes
        calls := if needTickle s.run.fibers nodes then Function.update s.calls x .check else s.calls })
  | flags {a b c} (ha : ∀ x now, a ≠ .read x now) :
      Effect thread s a { s with isStopping := b, autoStop := c }
  | asks {y} (hy : s.asking y = none) :
      Effect thread s (.ask y) { s with asking := Function.update s.asking y (some .timers) }
  | reads {x now q q'} (hq : s.asks x = some q) (hres : (s.look x now q).1 = .inl q') :
      Effect thread s (.read x now) ((s.look x now q).2.setAsk x (some q'))
  | answers {x now q b} (hq : s.asks x = some q) (hres : (s.look x now q).1 = .inr b)
      (hb : b = true → ∃ y, x = .inr y) :
      Effect thread s (.read x now) ((s.look x now q).2.setAsk x none)
  | wakes {w tickled} (hidle : s.inIdle w = true) (hw : s.idle w = .wait) (hpipe : tickled = true → 0 < s.pipe) :
      Effect thread s (.wake w tickled) { s with idle := Function.update s.idle w (.woken tickled) }
  | expires {w now tmp tickled l} (hidle : s.inIdle w = true) (hw : s.idle w = .woken tickled)
      (hl : TimerManager.step s.life (.listExpiredCb now tmp) = some l) :
      Effect thread s (.expire w now tmp) (State.note { s with
        life := l
        idle := Function.update s.idle w
          (if (s.copies now tmp).isEmpty then .reports tickled else .expired tickled (s.copies now tmp))
        holders := if (s.copies now tmp).isEmpty then s.holders else w :: s.holders })
  | puts {w tickled cbs} (hidle : s.inIdle w = true) (hw : s.idle w = .expired tickled cbs)
      (he : Workers.Effect thread s.run (.schedule cbs) (s.run.schedule cbs)) :
      Effect thread s (.put w) { s with
        run := s.run.schedule cbs
        calls := if needTickle s.run.fibers cbs then Function.update s.calls (.inl w) .check else s.calls
        idle := Function.update s.idle w (.reports tickled)
        holders := s.holders.filter (· ≠ w) }
  | drains {w} (hidle : s.inIdle w = true) (hw : s.idle w = .reports true) :
      Effect thread s (.drain w) { s with
        pipe := 0
        idle := Function.update s.idle w (.reports false) }

/-- The step that leaves an `idle_fiber` starts nothing and calls no `tickle`. -/
theorem leaves_spec {a : Act ω τ φ ι κ} {b : Workers.Act ω φ (Job ι κ)} {w : ω} (hidle : s.inIdle w = true)
    (hb : b = .finish w false ∨ b = .yieldToHold w) (h : s.worker thread b = some t)
    (hread : ∀ x now, a = .read x now → x = .inl w ∧ s.asks x = some .tasks ∧ s.stopping = true) :
    Effect thread s a t := by
  obtain ⟨he, ht⟩ := worker_spec h
  obtain ⟨hsame, hmover, hnot⟩ : t = { s with run := t.run } ∧ b.mover = some w ∧ ∀ g, b ≠ .work w g := by
    obtain rfl | rfl := hb
    · exact ⟨by simpa [State.tickles, State.begins, State.starts] using ht, rfl, nofun⟩
    · exact ⟨by simpa [State.tickles, State.begins, State.starts] using ht, rfl, nofun⟩
  rw [hsame]
  exact .leaves hidle hmover hnot he hread

omit [DecidableEq ω] [DecidableEq τ] [DecidableEq φ] [LinearOrder ι] in
theorem asks_inIdle {w : ω} {q : Asking} (h : s.asks (.inl w) = some q) :
    s.inIdle w = true ∧ s.idle w = .asking q := by
  simp only [State.asks] at h
  split at h
  · rename_i hidle hw
    cases h
    exact ⟨hidle, hw⟩
  · cases h

omit [DecidableEq φ] [LinearOrder ι] in
/-- Only the last read answers true, and it changes nothing. -/
theorem look_true {x : ω ⊕ τ} {now : U64} {q : Asking} (hres : (s.look x now q).1 = .inr true) :
    q = .tasks ∧ s.stopping = true := by
  cases q with
  | timers =>
    simp only [State.look] at hres
    split at hres <;> cases hres
  | events =>
    simp only [State.look] at hres
    split at hres <;> cases hres
  | tasks => exact ⟨rfl, Sum.inr.inj hres⟩

theorem read_effect {x : ω ⊕ τ} {now : U64} {q : Asking} (hq : s.asks x = some q)
    (h : (s.look x now q).2.goOn thread x (s.look x now q).1 = some t) : Effect thread s (.read x now) t := by
  unfold State.goOn at h
  split at h
  · rename_i q' hres
    cases h
    exact .reads hq hres
  · rename_i hres
    cases h
    exact .answers hq hres nofun
  · rename_i hres
    split at h
    · rename_i w
      obtain ⟨rfl, hstop⟩ := look_true hres
      refine leaves_spec (asks_inIdle hq).1 (.inl rfl) h fun x now ha => ?_
      cases ha
      exact ⟨rfl, hq, hstop⟩
    · rename_i y
      cases h
      exact .answers hq hres fun _ => ⟨y, rfl⟩

theorem step_effect {a : Act ω τ φ ι κ} (h : step thread s a = some t) : Effect thread s a t := by
  replace h := (Option.ite_none_right_eq_some.mp h).2
  cases a with
  | worker b =>
    obtain ⟨hok, h⟩ := Option.ite_none_right_eq_some.mp h
    obtain ⟨he, ht⟩ := worker_spec h
    rw [ht]
    exact .works rfl hok he
  | schedule x nodes =>
    obtain ⟨he, rfl⟩ := push_spec (Option.ite_none_right_eq_some.mp h).2
    exact .pushes rfl he
  | tickle x =>
    simp only [act] at h
    split at h
    · cases h
    · rename_i hx
      cases h
      exact .checks hx
    · rename_i hx
      cases h
      exact .writes hx
  | timer x op =>
    obtain ⟨⟨-, -, hop⟩, h⟩ := Option.ite_none_right_eq_some.mp h
    obtain ⟨l, hl, rfl⟩ := Option.map_eq_some_iff.mp h
    exact .times hop hl
  | table x op =>
    obtain ⟨ans, u, nodes, hop, he, rfl, hn⟩ := touch_spec (Option.ite_none_right_eq_some.mp h).2
    exact .touches hop hn he (.inl rfl)
  | start =>
    cases h
    exact .flags nofun
  | autoStop =>
    cases h
    exact .flags nofun
  | stop =>
    cases h
    exact .flags nofun
  | ask y =>
    obtain ⟨⟨huser, -⟩, h⟩ := Option.ite_none_right_eq_some.mp h
    cases h
    exact .asks (Option.isNone_iff_eq_none.mp huser)
  | read x now =>
    simp only [act] at h
    split at h
    · rename_i q hq _
      exact read_effect hq h
    · cases h
  | wake w tickled =>
    simp only [act] at h
    split at h
    · rename_i hidle hw
      obtain ⟨hpipe, h⟩ := Option.ite_none_right_eq_some.mp h
      cases h
      exact .wakes hidle hw hpipe
    · cases h
  | expire w now tmp =>
    simp only [act] at h
    split at h
    · rename_i hidle hw
      obtain ⟨l, hl, rfl⟩ := Option.map_eq_some_iff.mp h
      exact .expires hidle hw hl
    · cases h
  | put w =>
    simp only [act] at h
    split at h
    · rename_i hidle hw
      obtain ⟨v, hv, rfl⟩ := Option.map_eq_some_iff.mp h
      obtain ⟨he, rfl⟩ := push_spec hv
      exact .puts hidle hw he
    · cases h
  | report w fd r ok =>
    simp only [act] at h
    split at h
    · rename_i b hidle hw _
      obtain ⟨ans, u, nodes, hop, he, rfl, hn⟩ := touch_spec h
      exact .touches hop hn he (.inr ⟨w, fd, r, ok, rfl, hidle, ⟨_, hw⟩, rfl⟩)
    · cases h
  | drain w =>
    simp only [act] at h
    split at h
    · rename_i hidle hw _
      cases h
      exact .drains hidle hw
    · cases h
  | swapOut w =>
    simp only [act] at h
    split at h
    · rename_i hidle _ _
      exact leaves_spec hidle (.inr rfl) h nofun
    · cases h

/-! ### What a step leaves alone -/

/-- Where a thread is in `stopping(timeout)`. -/
def State.place (s : State ω τ φ ι κ) : ω ⊕ τ → Option Asking
  | .inl w =>
    match s.idle w with
    | .asking q => some q
    | _ => none
  | .inr y => s.asking y

omit [DecidableEq τ] [DecidableEq φ] [LinearOrder ι] in
theorem update_expired {w v : ω} {x : Stage φ ι κ} {b : Bool} {cbs : List (FiberAndThread φ (Job ι κ))}
    (h : Function.update s.idle w x v = .expired b cbs) (hx : ∀ b cbs, x ≠ .expired b cbs) :
    s.idle v = .expired b cbs := by
  by_cases hv : v = w
  · subst hv
    rw [Function.update_self] at h
    exact absurd h (hx b cbs)
  · rwa [Function.update_of_ne hv] at h

omit [DecidableEq τ] [DecidableEq φ] [LinearOrder ι] in
/-- A step of the scheduler goes into an `idle_fiber` or leaves `idle` alone. -/
theorem begins_spec (s : State ω τ φ ι κ) (b : Workers.Act ω φ (Job ι κ)) (v : ω) :
    s.begins b v = s.idle v ∨
      ((∃ f, s.run.pc v = .inside .entered .idle f) ∧ s.begins b v = .asking .timers) := by
  cases b with
  | work w g =>
    rcases hpc : s.run.pc w with _ | _ | ft | ⟨st, kd, f⟩ | _ <;> simp only [State.begins, hpc]
    case inside =>
      by_cases hvw : v = w
      · subst hvw
        cases st <;> cases kd <;> simp [hpc]
      · cases st <;> cases kd <;> simp [Function.update_of_ne hvw]
    all_goals exact .inl trivial
  | enter | create | schedule | yieldToHold | yieldToReady | finish => exact .inl rfl

omit [DecidableEq τ] [DecidableEq φ] [LinearOrder ι] in
theorem begins_expired {b : Workers.Act ω φ (Job ι κ)} {v : ω} {c : Bool}
    {cbs : List (FiberAndThread φ (Job ι κ))} (h : s.begins b v = .expired c cbs) : s.idle v = .expired c cbs := by
  obtain heq | ⟨-, heq⟩ := begins_spec s b v
  · rwa [heq] at h
  · cases heq.symm.trans h

/-- A read of `stopping(timeout)` writes where the thread is, and what it has seen. -/
structure Reads (s : State ω τ φ ι κ) (x : ω ⊕ τ) (q : Option Asking) (t : State ω τ φ ι κ) : Prop where
  run : t.run = s.run
  calls : t.calls = s.calls
  pipe : t.pipe = s.pipe
  started : t.started = s.started
  holders : t.holders = s.holders
  table : t.table = s.table
  history : t.life.history = s.life.history
  timers : t.life.manager.timers = s.life.manager.timers
  self : t.place x = q
  place : ∀ y, y ≠ x → t.place y = s.place y
  idle : ∀ w, s.asks (.inl w) = none → t.idle w = s.idle w
  expired : ∀ w b cbs, t.idle w = .expired b cbs → s.idle w = .expired b cbs

omit [DecidableEq φ] [LinearOrder ι] in
theorem setAsk_place (s : State ω τ φ ι κ) (x : ω ⊕ τ) (q : Option Asking) :
    (s.setAsk x q).place x = q ∧ (∀ y, y ≠ x → (s.setAsk x q).place y = s.place y) := by
  cases x with
  | inl w =>
    refine ⟨by cases q <;> simp [State.setAsk, State.place], fun y hy => ?_⟩
    cases y with
    | inl v =>
      have hv : v ≠ w := fun heq => hy (congrArg _ heq)
      cases q <;> simp [State.setAsk, State.place, Function.update_of_ne hv]
    | inr z => cases q <;> rfl
  | inr z =>
    refine ⟨by cases q <;> simp [State.setAsk, State.place], fun y hy => ?_⟩
    cases y with
    | inl v => cases q <;> rfl
    | inr v =>
      have hv : v ≠ z := fun heq => hy (congrArg _ heq)
      cases q <;> simp [State.setAsk, State.place, Function.update_of_ne hv]

omit [DecidableEq φ] [LinearOrder ι] in
/-- Only a worker that asks is moved. -/
theorem setAsk_idle {x : ω ⊕ τ} {q : Asking} (hq : s.asks x = some q) (q' : Option Asking) {w : ω}
    (hw : s.asks (.inl w) = none) : (s.setAsk x q').idle w = s.idle w := by
  cases x with
  | inr y => cases q' <;> rfl
  | inl v =>
    have hne : w ≠ v := by
      rintro rfl
      cases hw.symm.trans hq
    cases q' <;> exact Function.update_of_ne hne ..

omit [DecidableEq φ] [LinearOrder ι] in
theorem look_reads {x : ω ⊕ τ} {now : U64} {q : Asking} (hq : s.asks x = some q) (q' : Option Asking) :
    Reads s x q' ((s.look x now q).2.setAsk x q') := by
  have hidle : ((s.look x now q).2.setAsk x q').idle = (s.setAsk x q').idle := by
    cases x <;> cases q <;> cases q' <;> rfl
  have hasking : ((s.look x now q).2.setAsk x q').asking = (s.setAsk x q').asking := by
    cases x <;> cases q <;> cases q' <;> rfl
  have hplace : ∀ y, ((s.look x now q).2.setAsk x q').place y = (s.setAsk x q').place y := by
    intro y
    cases y with
    | inl v => rw [State.place, hidle, State.place]
    | inr y => rw [State.place, hasking, State.place]
  have htimers : ((s.look x now q).2.setAsk x q').life.manager.timers = s.life.manager.timers := by
    have hnext : (s.life.manager.getNextTimer now).2.timers = s.life.manager.timers := by
      simp only [TimerManager.State.getNextTimer]
      split
      · rfl
      · split <;> rfl
    cases x <;> cases q <;> cases q' <;> first | rfl | exact hnext
  refine ⟨?_, ?_, ?_, ?_, ?_, ?_, ?_, htimers, ?_, fun y hy => ?_, fun w hw => ?_, fun w b cbs hw => ?_⟩
  iterate 7 exact by cases x <;> cases q <;> cases q' <;> rfl
  · rw [hplace]
    exact (setAsk_place s x q').1
  · rw [hplace]
    exact (setAsk_place s x q').2 y hy
  · rw [hidle]
    exact setAsk_idle hq q' hw
  · rw [hidle] at hw
    cases x with
    | inl v => cases q' <;> exact update_expired hw nofun
    | inr y => cases q' <;> exact hw

/-- The scheduler takes a step of its own or none. -/
theorem Effect.run {a : Act ω τ φ ι κ} (h : Effect thread s a t) :
    t.run = s.run ∨ ∃ b, Workers.Effect thread s.run b t.run := by
  cases h with
  | works hb hok he => exact .inr ⟨_, he⟩
  | leaves hidle hmover hnot he hread => exact .inr ⟨_, he⟩
  | pushes hn he => exact .inr ⟨_, he⟩
  | touches hop hn he ha => exact .inr ⟨_, he⟩
  | puts hidle hw he => exact .inr ⟨_, he⟩
  | reads hq hres => exact .inl (look_reads hq _).run
  | answers hq hres hb => exact .inl (look_reads hq _).run
  | checks | writes | times | flags | asks | wakes | expires | drains => exact .inl rfl

/-- And so does the timer manager. -/
theorem Effect.life {a : Act ω τ φ ι κ} (h : Effect thread s a t) :
    t.life = s.life ∨ ∃ op, TimerManager.step s.life op = some t.life := by
  have hset : ∀ {s : State ω τ φ ι κ} x q, (s.setAsk x q).life = s.life := by
    intro s x q
    cases x <;> cases q <;> rfl
  have hlook : ∀ {x now q}, (s.look x now q).2.life = s.life ∨
      ∃ op, TimerManager.step s.life op = some (s.look x now q).2.life := by
    intro x now q
    cases q with
    | timers => exact .inr ⟨.getNextTimer now, by simp [TimerManager.step, TimerManager.exec, TimerManager.returned, State.look]⟩
    | events => exact .inl rfl
    | tasks => exact .inl rfl
  cases h with
  | times hop hl => exact .inr ⟨_, hl⟩
  | expires hidle hw hl => exact .inr ⟨_, hl⟩
  | reads hq hres =>
    rw [hset]
    exact hlook
  | answers hq hres hb =>
    rw [hset]
    exact hlook
  | works | leaves | pushes | checks | writes | touches | flags | asks | wakes | puts | drains => exact .inl rfl

end

end ShioSylar.IOManager.Idle
