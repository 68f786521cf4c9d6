import ShioSylar.Scheduler.Stopping

/-! Starting and stopping a scheduler (`Scheduler::start`, `Scheduler::stop`, `thread.cc`).

The creator of the scheduler calls `start`, and then `stop`, once each. `start` holds `m_mutex` while it
makes its threads; the constructor of a `Thread` waits for the semaphore that the new thread raises
when it has written its id and taken its callback, so `start` reads ids that are there
(`start_records`). `stop` runs `m_rootFiber` on the caller's thread, and joins the others.

A worker may leave `run` while a task is still to come (`stops_early`); what `stop` waits for is
that all have left. The last one to leave has scanned `m_fibers` after everybody else, so that
`stop` returns with nothing left that any thread may run (`stop_drains`). -/
namespace ShioSylar.Scheduler.Lifecycle
open Lib Workers

/-- How far a thread is in `Thread::run`. -/
inductive ThreadPc where
  | absent
  /-- After `pthread_create`. -/
  | created
  /-- `t_thread_name` and `m_id` are written. -/
  | identified
  /-- `m_cb` is taken. -/
  | taken
  /-- In the callback. -/
  | running
  | returned
  | joined
  deriving DecidableEq

/-- A `Thread`. -/
structure Thread where
  pc : ThreadPc := .absent
  id : Int := -1
  name : String := ""
  hasCb : Bool := false
  semaphore : Nat := 0

/-- How far the creator is in `start` or `stop`; a list is of the threads still to come. -/
inductive Creator (ω : Type) where
  | fresh
  | spawning (left : List ω)
  /-- In the constructor of a `Thread`. -/
  | waiting (w : ω) (left : List ω)
  | started
  /-- `m_autoStop` is written. -/
  | flagged
  /-- `m_stopping` is written where there is the caller's thread only. -/
  | marked
  /-- `m_stopping` is written. -/
  | stopped
  /-- In `m_rootFiber->call()`. -/
  | inRoot
  /-- Before `thrs.swap(m_threads)`. -/
  | swapping
  | joining (left : List ω)
  | returned

structure State (ω φ κ : Type) where
  stopper : Stopper ω φ κ
  /-- The thread of `m_rootThread`, with `use_caller`. -/
  caller : Option ω
  name : String
  threadCount : Nat
  /-- `m_threads`, as far as they are made. -/
  threads : List ω
  threadIds : List Int
  object : ω → Thread
  /-- `t_thread_name`. -/
  threadName : ω → String
  creator : Creator ω

inductive Act (ω φ κ : Type) where
  /-- `start`; the threads that the system will make. -/
  | start (ws : List ω)
  | stop
  /-- The next step of the creator. -/
  | creator
  /-- The next step of `Thread::run`. -/
  | thread (w : ω)
  | idle (w : ω)
  /-- `schedule`, called by the fiber on a worker or by any other thread. -/
  | schedule (who : Option ω) (nodes : List (FiberAndThread φ κ))
  | worker (a : Workers.Act ω φ κ)

section
variable {ω φ κ : Type} [DecidableEq ω] [DecidableEq φ]

/-- The constructor of `Scheduler`. -/
def init (thread : ω → Int) (name : String) (threads : Nat) (caller : Option ω) : State ω φ κ where
  stopper := Stopper.init
  caller := caller
  name := name
  threadCount := if caller.isSome then threads - 1 else threads
  threads := []
  threadIds := caller.toList.map thread
  object := fun _ => {}
  threadName := fun w => if caller = some w ∧ name ≠ "" then name else "UNKNOW"
  creator := .fresh

namespace State

def pc (s : State ω φ κ) (w : ω) : Pc φ κ := s.stopper.state.pc w

/-- `m_mutex` is held by `start`. -/
def locked (s : State ω φ κ) : Bool :=
  match s.creator with
  | .spawning _ | .waiting _ _ => true
  | _ => false

def sched (s : State ω φ κ) (a : StopAct ω φ κ) (thread : ω → Int) : Option (State ω φ κ) :=
  (Stopper.step thread s.stopper a).map fun t => { s with stopper := t }

def setObject (s : State ω φ κ) (w : ω) (x : Thread) : State ω φ κ :=
  { s with object := Function.update s.object w x }

/-- `m_rootFiber` is in INIT or TERM. -/
def rootAtRest (s : State ω φ κ) (w : ω) : Bool :=
  match s.pc w with
  | .out | .exited => true
  | _ => false

/-- The next step of the creator. -/
def create (thread : ω → Int) (s : State ω φ κ) : Option (State ω φ κ) :=
  match s.creator with
  | .fresh | .started | .returned => none
  | .spawning [] => some { s with creator := .started }
  | .spawning (w :: left) =>
    if (s.object w).pc = .absent ∧ s.caller ≠ some w then
      let name := s.name ++ "_" ++ toString s.threads.length
      some { s.setObject w { pc := .created, name := name, hasCb := true } with creator := .waiting w left }
    else none
  | .waiting w left =>
    let x := s.object w
    if 0 < x.semaphore then
      some { s.setObject w { x with semaphore := x.semaphore - 1 } with
        threads := s.threads ++ [w], threadIds := s.threadIds ++ [x.id], creator := .spawning left }
    else none
  | .flagged =>
    let next := if s.caller.any s.rootAtRest ∧ s.threadCount = 0 then .marked else .stopped
    (s.sched .stop thread).map fun t => { t with creator := next }
  | .marked =>
    if s.stopper.stopping then some { s with creator := .returned }
    else (s.sched .stop thread).map fun t => { t with creator := .stopped }
  | .stopped =>
    some { s with creator := if s.caller.isSome ∧ ¬ s.stopper.stopping then .inRoot else .swapping }
  | .inRoot =>
    match s.caller.map s.pc with
    | some .exited => some { s with creator := .swapping }
    | _ => none
  | .swapping => some { s with threads := [], creator := .joining s.threads }
  | .joining [] => some { s with creator := .returned }
  | .joining (w :: left) =>
    let x := s.object w
    if x.pc = .returned then some { s.setObject w { x with pc := .joined } with creator := .joining left }
    else none

/-- The next step of `Thread::run`. -/
def runThread (thread : ω → Int) (s : State ω φ κ) (w : ω) : Option (State ω φ κ) :=
  let x := s.object w
  match x.pc with
  | .created => some { s.setObject w { x with pc := .identified, id := thread w } with
      threadName := Function.update s.threadName w x.name }
  | .identified => some (s.setObject w { x with pc := .taken, hasCb := false })
  | .taken => some (s.setObject w { x with pc := .running, semaphore := x.semaphore + 1 })
  | .running =>
    match s.pc w with
    | .exited => some (s.setObject w { x with pc := .returned })
    | _ => none
  | .absent | .returned | .joined => none

/-- A thread may enter `run`: it is in the callback of its `Thread`, or in `m_rootFiber`. -/
def mayEnter (s : State ω φ κ) (w : ω) : Bool :=
  if s.caller = some w then
    match s.creator with
    | .inRoot => true
    | _ => false
  else (s.object w).pc = .running

/-- The step of a worker takes `m_mutex`. -/
def takesMutex (s : State ω φ κ) : Workers.Act ω φ κ → Bool
  | .work w _ =>
    match s.pc w with
    | .top => true
    | .inside .check _ f => (s.stopper.state.fiber f).any (·.state = .ready)
    | _ => false
  | _ => false

end State

/-- One step. -/
def step (thread : ω → Int) (s : State ω φ κ) : Act ω φ κ → Option (State ω φ κ)
  | .start ws =>
    match s.creator with
    | .fresh =>
      if ws.length = s.threadCount then
        (s.sched .start thread).map fun t => { t with creator := .spawning ws }
      else none
    | _ => none
  | .stop =>
    match s.creator with
    | .started => (s.sched .autoStop thread).map fun t => { t with creator := .flagged }
    | _ => none
  | .creator => s.create thread
  | .thread w => s.runThread thread w
  | .idle w => if s.locked then none else s.sched (.idle w) thread
  | .schedule who nodes =>
    let calls : Bool := match who with
      | none => true
      | some w =>
        match s.pc w with
        | .inside .running _ _ => true
        | _ => false
    if s.locked ∨ calls = false then none else s.sched (.worker (.schedule nodes)) thread
  | .worker (.schedule _) => none
  | .worker (.enter w i) => if s.mayEnter w then s.sched (.worker (.enter w i)) thread else none
  | .worker a => if s.locked ∧ s.takesMutex a then none else s.sched (.worker a) thread

end

end ShioSylar.Scheduler.Lifecycle
