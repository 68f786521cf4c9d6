import ShioSylar.Lib.Run
import ShioSylar.Scheduler.Queue
import Mathlib.Logic.Function.Basic

/-! Fibers and the workers of a scheduler (`fiber.cc`, `Scheduler::run`).

Any number of threads run `Scheduler::run`. A step is one section under the scheduler's
mutex, one write of a fiber's state, or one switch of contexts; everything a worker does
between two of these touches only what is its own. `Pc` says how far a worker is: it has
fetched a node, or it is at one of the points from just before `swapIn` to the write of
HOLD, with the fiber it switches to and for what (a fiber task, its `cb_fiber` or its
`idle_fiber`).

What user code does is free: while a fiber runs it may yield or end at any time, and
`schedule` is a step of any thread. Two things are kept beside the source's data: who
created a fiber, and whether it was put into `m_fibers` since it last became EXEC. -/
namespace ShioSylar.Scheduler.Workers
open Lib

/-- `Fiber::State`. -/
inductive FiberState where
  | init | hold | exec | term | ready | except
  deriving DecidableEq

/-- Who created a fiber: user code, or a worker for a callback or for `idle`. -/
inductive Origin where
  | user | callback | idle
  deriving DecidableEq

/-- A failed `ASSERT`, or a switch to a context that is not saved. -/
inductive Fault where
  | assertion | unsaved
  deriving DecidableEq

/-- A fiber; `saved` says that `m_ctx` is its context, of the latest suspension or from
`makecontext`. -/
structure Fiber (κ : Type) where
  state : FiberState := .init
  saved : Bool := true
  cb : Option κ
  origin : Origin

namespace Fiber
variable {κ : Type}

/-- The end of `MainFunc` was reached. -/
def ended (r : Fiber κ) : Bool := r.state = .term ∨ r.state = .except

/-- `reset`. -/
def reset (r : Fiber κ) (cb : Option κ) : Except Fault (Fiber κ) :=
  if r.state = .term ∨ r.state = .except ∨ r.state = .init then
    .ok { r with cb := cb, saved := true, state := .init }
  else .error .assertion

/-- `swapIn` up to its `swapcontext`. -/
def swapIn (r : Fiber κ) : Except Fault (Fiber κ) :=
  if r.state = .exec then .error .assertion else .ok { r with state := .exec }

/-- `swapcontext` to the fiber. -/
def switchTo (r : Fiber κ) : Except Fault (Fiber κ) :=
  if r.saved then .ok { r with saved := false } else .error .unsaved

/-- `swapcontext` away from the fiber. -/
def switchFrom (r : Fiber κ) : Except Fault (Fiber κ) := .ok { r with saved := true }

/-- `YieldToHold` up to its `swapOut`. -/
def yieldToHold (r : Fiber κ) : Except Fault (Fiber κ) :=
  if r.state = .exec then .ok r else .error .assertion

/-- `YieldToReady` up to its `swapOut`. -/
def yieldToReady (r : Fiber κ) : Except Fault (Fiber κ) :=
  if r.state = .exec then .ok { r with state := .ready } else .error .assertion

/-- The end of `MainFunc`, where the callback returned or threw. -/
def finish (r : Fiber κ) (threw : Bool) : Except Fault (Fiber κ) :=
  .ok (if threw then { r with state := .except } else { r with cb := none, state := .term })

/-- `m_state = HOLD` of `run`. -/
def hold (r : Fiber κ) : Except Fault (Fiber κ) := .ok { r with state := .hold }

end Fiber

/-- Why a worker switches to a fiber. -/
inductive Kind where
  | task | callback | idle
  deriving DecidableEq

/-- From before the write of EXEC to before the write of HOLD. -/
inductive Stage where
  /-- Before `m_state = EXEC` of `swapIn`. -/
  | entry
  /-- Before its `swapcontext`. -/
  | entered
  /-- The fiber runs. -/
  | running
  /-- The fiber is before the `swapcontext` of `swapOut`. -/
  | leaving
  /-- Back in `run`, before the count is lowered. -/
  | back
  /-- Before the fiber's state is tested. -/
  | check
  /-- Before `m_state = HOLD`. -/
  | hold
  deriving DecidableEq

inductive Pc (φ κ : Type) where
  | out
  | top
  /-- The scan is done, with the node it took. -/
  | chosen (ft : Option (FiberAndThread φ κ))
  | inside (st : Stage) (k : Kind) (f : φ)
  | exited

/-- The fiber a worker is engaged with. -/
def Pc.fiber {φ κ : Type} : Pc φ κ → Option φ
  | .chosen ft => ft.bind (·.fiber)
  | .inside _ _ f => some f
  | _ => none

/-- A thread in `run`: `cb_fiber` and `idle_fiber`. -/
structure Worker (φ κ : Type) where
  pc : Pc φ κ := .out
  cbFiber : Option φ := none
  idleFiber : Option φ := none

structure State (ω φ κ : Type) where
  /-- `m_fibers`. -/
  fibers : List (FiberAndThread φ κ)
  fiber : φ → Option (Fiber κ)
  worker : ω → Worker φ κ
  activeThreadCount : Int
  idleThreadCount : Int
  /-- Put into `m_fibers` since it last became EXEC. -/
  woken : φ → Bool
  fault : Option Fault

def start {ω φ κ : Type} : State ω φ κ :=
  ⟨[], fun _ => none, fun _ => {}, 0, 0, fun _ => false, none⟩

inductive Act (ω φ κ : Type) where
  /-- A thread enters `run` and creates its `idle_fiber`. -/
  | enter (w : ω) (i : φ)
  | create (f : φ) (cb : κ)
  | schedule (nodes : List (FiberAndThread φ κ))
  /-- The next step of a worker in `run`; a new fiber would get the address `g`. -/
  | work (w : ω) (g : φ)
  | yieldToHold (w : ω)
  | yieldToReady (w : ω)
  | finish (w : ω) (threw : Bool)

section
variable {ω φ κ : Type} [DecidableEq ω] [DecidableEq φ]

namespace State

def pc (s : State ω φ κ) (w : ω) : Pc φ κ := (s.worker w).pc

def isExec (s : State ω φ κ) (f : φ) : Bool := (s.fiber f).any (·.state = .exec)

def goto (s : State ω φ κ) (w : ω) (pc : Pc φ κ) : State ω φ κ :=
  { s with worker := Function.update s.worker w { s.worker w with pc := pc } }

/-- An operation on a fiber, which may fail its assertion. -/
def modify (s : State ω φ κ) (f : φ) (op : Fiber κ → Except Fault (Fiber κ))
    (next : State ω φ κ → State ω φ κ) : Option (State ω φ κ) :=
  match s.fiber f with
  | none => none
  | some r =>
    match op r with
    | .ok r => some (next { s with fiber := Function.update s.fiber f (some r) })
    | .error e => some { s with fault := some e }

/-- `schedule`. -/
def schedule (s : State ω φ κ) (nodes : List (FiberAndThread φ κ)) : State ω φ κ :=
  { s with
    fibers := scheduleAll s.fibers nodes
    woken := fun f => s.woken f || nodes.any (·.fiber = some f) }

/-- The fiber that `run` switches to for the node, if its fiber has not ended. -/
def runnable (s : State ω φ κ) (ft : Option (FiberAndThread φ κ)) : Option φ :=
  (ft.bind (·.fiber)).filter fun f => !(s.fiber f).any (·.ended)

/-- The branch of `run` for what the scan took. -/
def choose (s : State ω φ κ) (w : ω) (ft : Option (FiberAndThread φ κ)) (g : φ) :
    Option (State ω φ κ) :=
  match s.runnable ft, ft.bind (·.cb) with
  | some f, _ => some (s.goto w (.inside .entry .task f))
  | none, some cb =>
    match (s.worker w).cbFiber with
    | some h => s.modify h (·.reset (some cb)) fun s => s.goto w (.inside .entry .callback h)
    | none =>
      if (s.fiber g).isSome then none
      else some { s with
        fiber := Function.update s.fiber g (some { cb := some cb, origin := .callback })
        worker := Function.update s.worker w
          { s.worker w with pc := .inside .entry .callback g, cbFiber := some g } }
  | none, none =>
    if ft.isSome then some { s.goto w .top with activeThreadCount := s.activeThreadCount - 1 }
    else
      match (s.worker w).idleFiber with
      | none => none
      | some i =>
        if (s.fiber i).any (·.state = .term) then some (s.goto w .exited)
        else some { s.goto w (.inside .entry .idle i) with idleThreadCount := s.idleThreadCount + 1 }

/-- What `run` does with the fiber it comes back from, up to the write of HOLD. -/
def settle (s : State ω φ κ) (w : ω) (k : Kind) (f : φ) : Option (State ω φ κ) :=
  match s.fiber f with
  | none => none
  | some r =>
    if r.state = .ready ∧ k ≠ .idle then
      let s := s.schedule [{ fiber := some f }]
      some (if k = .callback then
        { s with worker := Function.update s.worker w { s.worker w with pc := .top, cbFiber := none } }
        else s.goto w .top)
    else if r.ended then
      if k = .callback then s.modify f (·.reset none) fun s => s.goto w .top
      else some (s.goto w .top)
    else some (s.goto w (.inside .hold k f))

/-- The next step of a worker on its thread. -/
def work (thread : ω → Int) (s : State ω φ κ) (w : ω) (g : φ) : Option (State ω φ κ) :=
  match s.pc w with
  | .out => none
  | .exited => none
  | .top =>
    match fetch (thread w) s.isExec s.fibers with
    | none => some { s with fault := some .assertion }
    | some r => some { s.goto w (.chosen r.task) with
        fibers := r.fibers
        activeThreadCount := s.activeThreadCount + (if r.task.isSome then 1 else 0) }
  | .chosen ft => s.choose w ft g
  | .inside .entry k f => s.modify f (·.swapIn) fun s =>
      { s.goto w (.inside .entered k f) with woken := Function.update s.woken f false }
  | .inside .entered k f => s.modify f (·.switchTo) fun s => s.goto w (.inside .running k f)
  | .inside .running _ _ => none
  | .inside .leaving k f => s.modify f (·.switchFrom) fun s => s.goto w (.inside .back k f)
  | .inside .back k f => some (if k = .idle
      then { s.goto w (.inside .check k f) with idleThreadCount := s.idleThreadCount - 1 }
      else { s.goto w (.inside .check k f) with activeThreadCount := s.activeThreadCount - 1 })
  | .inside .check k f => s.settle w k f
  | .inside .hold k f => s.modify f (·.hold) fun s =>
      if k = .callback then
        { s with worker := Function.update s.worker w { s.worker w with pc := .top, cbFiber := none } }
      else s.goto w .top

/-- The address of an `idle_fiber` stays in `run`. -/
def shared (s : State ω φ κ) (f : φ) : Bool := (s.fiber f).any (·.origin ≠ .idle)

/-- The fiber a worker runs takes its last step before `swapOut`. -/
def leave (s : State ω φ κ) (w : ω) (op : Fiber κ → Except Fault (Fiber κ)) : Option (State ω φ κ) :=
  match s.pc w with
  | .inside .running k f => s.modify f op fun s => s.goto w (.inside .leaving k f)
  | _ => none

end State

/-- One step. The constructors of a node fill one of fiber and callback; `idle` does not
throw. -/
def step (thread : ω → Int) (s : State ω φ κ) : Act ω φ κ → Option (State ω φ κ)
  | .enter w i =>
    match s.fault, s.pc w, s.fiber i with
    | none, .out, none => some { s with
        fiber := Function.update s.fiber i (some { cb := none, origin := .idle })
        worker := Function.update s.worker w { pc := .top, idleFiber := some i } }
    | _, _, _ => none
  | .create f cb =>
    match s.fault, s.fiber f with
    | none, none => some { s with
        fiber := Function.update s.fiber f (some { cb := some cb, origin := .user }) }
    | _, _ => none
  | .schedule nodes =>
    if s.fault = none ∧ ∀ ft ∈ nodes, ft.fiber.all s.shared ∧ (ft.fiber.isNone ∨ ft.cb.isNone) then
      some (s.schedule nodes)
    else none
  | .work w g => if s.fault = none then s.work thread w g else none
  | .yieldToHold w => if s.fault = none then s.leave w (·.yieldToHold) else none
  | .yieldToReady w => if s.fault = none then s.leave w (·.yieldToReady) else none
  | .finish w threw =>
    if s.fault = none ∧ (threw → (s.pc w).fiber.all s.shared) then s.leave w (·.finish threw) else none

end

end ShioSylar.Scheduler.Workers
